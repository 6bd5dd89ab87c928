import WhenLoop.Proofs.GivingUp

/-!
# The counters of a parse are balanced

A parse counts the levels of nesting that are open and the operators of the expression it reads.
A level is opened and closed by hand, in four places, and between the two the parse may report,
recover or give up.  Still every call comes back with the depth it was made with, whatever was
wrong with the source, and the depth is zero between the statements of a program.  So no level is
closed that was not opened.  The operators are counted past their limit by one at most, because
behind the one that passes it nothing is left to read.

The proof is by contract.  A `Contract` says what each routine relies on when it is called and
what it guarantees of its answer.  A plan meets the contract if it makes its calls as the contract
asks, and may take for granted what it guarantees (`Plan.Meets`).  If this holds of the plan of
every routine, then it holds of all calls and at all moments of a parse (`Contract.Kept`).
-/

namespace WhenLoop

open Grammar (Rank)
open State

/-! ## Contracts -/

/-- What the routines rely on, and what they guarantee. -/
structure Contract where
  /-- What holds of a state in which a routine is called. -/
  relies : Routine → State → Prop
  /-- What holds of the answer of a routine that was called in a state. -/
  guarantees : Routine → State → Node × State → Prop

/-- The plan makes its calls as the contract asks, and its answer is as it should be. -/
inductive Plan.Meets (c : Contract) (goal : Node × State → Prop) : Plan → Prop where
  | done {answer : Node × State} : goal answer → Meets c goal (.done answer)
  | call {r : Routine} {s : State} {next : Node × State → Plan} : c.relies r s →
      (∀ answer, (plan r s).Yields answer → c.guarantees r s answer → Meets c goal (next answer)) →
      Meets c goal (.call r s next)

/-- A call of which the answer is known. -/
theorem Plan.Meets.answered {c : Contract} {goal : Node × State → Prop} {r : Routine} {s : State}
    {next : Node × State → Plan} {answer : Node × State} (yields : (plan r s).Yields answer)
    (relies : c.relies r s) (rest : (next answer).Meets c goal) : Meets c goal (.call r s next) :=
  .call relies fun _ yields' _ => yields.unique yields' ▸ rest

/-- Every routine does what the contract says, if all others do. -/
def Contract.Kept (c : Contract) : Prop :=
  ∀ r s, c.relies r s → (plan r s).Meets c (c.guarantees r s)

namespace Contract.Kept

variable {c : Contract} {goal : Node × State → Prop} {p q : Plan} {source : String}

/-- Where the contract is kept, a plan that meets it answers as it should. -/
theorem yields (kept : c.Kept) {answer : Node × State} (yields : p.Yields answer)
    (h : p.Meets c goal) : goal answer := by
  induction yields generalizing goal with
  | done answer =>
      cases h with
      | done here => exact here
  | call first _ ih ihNext =>
      cases h with
      | call relies goesOn => exact ihNext (goesOn _ first (ih (kept _ _ relies)))

/-- What is left of a plan after some of its calls still meets the contract. -/
theorem leads (kept : c.Kept) (leads : p.Leads q) (h : p.Meets c goal) : q.Meets c goal := by
  induction leads with
  | refl p => exact h
  | answered first _ ih =>
      cases h with
      | call relies goesOn => exact ih (goesOn _ first (kept.yields first (kept _ _ relies)))

/-- Each call of a plan that meets the contract is made as the contract asks. -/
theorem makes (kept : c.Kept) {r : Routine} {s : State} (makes : p.Makes r s)
    (h : p.Meets c goal) : c.relies r s := by
  induction makes with
  | now =>
      cases h with
      | call relies _ => exact relies
  | later first _ ih =>
      cases h with
      | call relies goesOn => exact ih (goesOn _ first (kept.yields first (kept _ _ relies)))

/-- Whatever is called while a source is read is called as the contract asks. -/
theorem called (kept : c.Kept) (begins : c.relies .program (.before (scan source))) {r : Routine}
    {s : State} (called : Called source r s) : c.relies r s := by
  induction called with
  | first => exact begins
  | next _ makes ih => exact kept.makes makes (kept _ _ ih)

/-- What is carried out at a moment of a parse meets the contract. -/
theorem momentAt (kept : c.Kept) (begins : c.relies .program (.before (scan source))) (n : Nat) :
    ∃ r s, (momentAt source n).plan.Meets c (c.guarantees r s) := by
  obtain ⟨r, s, called, leads, -⟩ := momentAt_awaited source n
  exact ⟨r, s, kept.leads leads (kept r s (kept.called begins called))⟩

end Contract.Kept

/-! ## Counters within their bounds -/

namespace State

/-- The parse is at this depth, and neither counter is past its bound. -/
structure Within (depth : Nat) (s : State) : Prop where
  depth_eq : s.depth = depth
  nesting : depth ≤ maxNesting
  operators : s.operators ≤ maxOperators + 1

/-- A state in which a parser may run at this depth. -/
structure StandsAt (depth : Nat) (s : State) : Prop where
  standing : s.Standing
  within : s.Within depth

variable {s t : State} {d : Nat}

theorem Within.at_depth (h : s.Within d) : s.Within s.depth :=
  ⟨rfl, h.depth_eq ▸ h.nesting, h.operators⟩

namespace StandsAt

theorem at_depth (h : s.StandsAt d) : s.StandsAt s.depth := ⟨h.standing, h.within.at_depth⟩

/-- To go onward keeps the depth, so the parse stands where it stood as long as the operators are
within their bound. -/
theorem onward (h : s.StandsAt d) (onward : s.Onward t) (le : t.operators ≤ maxOperators + 1) :
    t.StandsAt d :=
  ⟨onward.standing h.standing, onward.depth.trans h.within.depth_eq, h.within.nesting, le⟩

theorem advance (h : s.StandsAt d) : s.advance.StandsAt d :=
  h.onward s.advance_onward (s.advance_operators ▸ h.within.operators)

theorem skip (h : s.StandsAt d) (stop : Token → Token → Bool) :
    (skip stop s s.upcoming).StandsAt d :=
  h.onward (skip_onward stop s List.suffix_rfl) (skip_operators stop s _ ▸ h.within.operators)

theorem report (h : s.StandsAt d) (r : Report) : (s.report r).StandsAt d :=
  h.onward (s.report_onward r) (s.report_operators r ▸ h.within.operators)

theorem reportCondition (h : s.StandsAt d) (problem : Problem) (node : Node) :
    (s.reportCondition problem node).StandsAt d := by
  rw [State.reportCondition]
  split
  · exact h.report _
  · exact h

theorem checkOperand (h : s.StandsAt d) (rung : Rung) (node : Node) :
    (rung.checkOperand s node).StandsAt d := by
  rw [Rung.checkOperand]
  split
  · exact h.reportCondition _ _
  · exact h

/-- Within the limit the operators may be counted anew. -/
theorem recount (h : s.StandsAt d) {operators : Nat} (le : operators ≤ maxOperators) :
    StandsAt d { s with operators := operators } :=
  ⟨⟨h.standing.finish, h.standing.ends, h.standing.head, .inl le⟩,
    h.within.depth_eq, h.within.nesting, Nat.le_succ_of_le le⟩

/-- Where something is left to read the limit was not passed. -/
theorem operators_le (h : s.StandsAt d) (inside : s.current.kind ≠ .endOfInput) :
    s.operators ≤ maxOperators :=
  h.standing.operators.resolve_right fun none => inside (h.standing.kind_of_nil none)

/-- A limit may leave the counter one past its bound, but nothing is left to read. -/
theorem abort (h : s.StandsAt d) (problem : Problem) {operators : Nat}
    (le : operators ≤ maxOperators + 1) :
    (abort { s with operators := operators } problem).StandsAt d := by
  refine h.onward (s.abort_onward problem operators) ?_
  rw [abort_operators]
  exact le

/-- To open a level, where there is room for one, is to stand one deeper. -/
theorem enter (h : s.StandsAt d) (room : d < maxNesting) :
    StandsAt (d + 1) { s with depth := s.depth + 1 } :=
  ⟨⟨h.standing.finish, h.standing.ends, h.standing.head, h.standing.operators⟩,
    congrArg (· + 1) h.within.depth_eq, room, h.within.operators⟩

/-- To close it is to stand where the level was opened. -/
theorem leave (h : s.StandsAt (d + 1)) : StandsAt d { s with depth := s.depth - 1 } :=
  ⟨⟨h.standing.finish, h.standing.ends, h.standing.head, h.standing.operators⟩,
    congrArg (· - 1) h.within.depth_eq, Nat.le_of_succ_le h.within.nesting, h.within.operators⟩

end StandsAt

end State

section Stepping

variable {s : State} (le : s.depth ≤ maxNesting)
include le

theorem consume_yields
    (standing : Standing { skip (fun _ _ => true) s s.upcoming with operators := 0 }) :
    (plan .consume s).Yields (.seq [], skip (fun _ _ => true) s s.upcoming) :=
  (Routine.settles 0 .consume s _ standing (Nat.add_sub_cancel' le)).yields

theorem seek_yields (goal : Goal) (standing : Standing { s with operators := 0 }) :
    (plan (.seek goal) s).Yields (.seq [], skip (goal.between s.depth) s s.upcoming) :=
  (Routine.settles 0 (.seek goal) s _ standing (Nat.add_sub_cancel' le)).yields

end Stepping

/-- Every routine is called within the bounds and answers at the depth it was called at.  A list
of statements of a program is read at depth zero. -/
def balance : Contract where
  relies
    | .consume, s | .seek _, s => s.Within s.depth
    | .program, s => Standing (skip (fun _ _ => true) s s.upcoming) ∧ s.Within 0
    | .statements inBlock _, s => s.StandsAt s.depth ∧ (inBlock = false → s.depth = 0)
    | _, s => s.StandsAt s.depth
  guarantees
    | .consume, s, answer | .seek _, s, answer => answer.2.Within s.depth
    | _, s, answer => answer.2.StandsAt s.depth

/-- Whether a routine reads a statement or a part of one. -/
def Routine.isPart : Routine → Bool
  | consume | seek _ | program | statements _ _ => false
  | _ => true

/-- A routine for a part of a statement may be called at whatever depth the parse stands. -/
theorem balance_relies {r : Routine} {s : State} {d : Nat} (part : r.isPart = true)
    (h : s.StandsAt d) : balance.relies r s := by
  cases r with
  | consume => cases part
  | seek => cases part
  | program => cases part
  | statements => cases part
  | _ => exact h.at_depth

theorem balance_guarantees {r : Routine} {s : State} {answer : Node × State}
    (part : r.isPart = true) (h : balance.guarantees r s answer) : answer.2.StandsAt s.depth := by
  cases r with
  | consume => cases part
  | seek => cases part
  | _ => exact h

/-- No routine is called past a bound. -/
theorem balance_relies_within {r : Routine} {s : State} (h : balance.relies r s) :
    s.Within s.depth := by
  cases r with
  | consume => exact h
  | seek goal => exact h
  | program => exact h.2.at_depth
  | statements inBlock found => exact h.1.within
  | _ => exact h.within

theorem balance_guarantees_within {r : Routine} {s : State} {answer : Node × State}
    (h : balance.guarantees r s answer) : answer.2.Within s.depth := by
  cases r with
  | consume => exact h
  | seek goal => exact h
  | _ => exact h.within

/-! ## The plans of the routines -/

namespace Plan

/-- The plan is balanced and ends at this depth. -/
abbrev EndsAt (d : Nat) : Plan → Prop := Meets balance fun answer => answer.2.StandsAt d

namespace EndsAt

variable {s : State} {d e : Nat} {node : Node} {next : State → Plan}

/-- A plan that steps over a token calls the routine for it, which keeps the depth. -/
theorem advance (h : s.StandsAt e) (rest : EndsAt d (next s.advance)) :
    EndsAt d (Plan.advance s next) := by
  let t : State := { s with previous := s.current, upcoming := s.upcoming.tail }
  have step : skip (fun _ _ => true) t t.upcoming = s.advance :=
    skip_with_upcoming _ { s with previous := s.current } _ _
  have within : t.Within t.depth := ⟨rfl, h.at_depth.within.nesting, h.within.operators⟩
  refine .answered (consume_yields within.nesting ?_) within ?_
  · rw [step]
    exact h.advance.standing.uncounted
  · rw [step]
    exact rest

theorem expect {kind : TokenKind} {problem : Problem} (h : s.StandsAt e)
    (rest : ∀ {t : State}, t.StandsAt e → EndsAt d (next t)) :
    EndsAt d (Plan.expect s kind problem next) := by
  rw [Plan.expect]
  split
  · exact advance h (rest h.advance)
  · exact rest (h.report _)

/-- A plan that gives up skips to the end.  The calls that do so keep the depth, and the counter of
operators is one past its bound at most. -/
theorem giveUp {problem : Problem} {operators : Nat} (h : s.StandsAt d)
    (le : operators ≤ maxOperators + 1) :
    EndsAt d (Plan.giveUp { s with operators := operators } problem node) := by
  let u : State := { s with operators := operators }
  let t : State := { u.reportCurrent problem with aborted := true }
  have same : t.upcoming = s.upcoming := report_upcoming u _
  have depth : t.depth = s.depth := report_depth u _
  have within : t.Within t.depth :=
    ⟨rfl, depth ▸ h.at_depth.within.nesting, (report_operators u _).symm ▸ le⟩
  have standing : Standing { t with operators := 0 } := by
    refine ⟨(congrArg Token.kind (report_finish u _)).trans h.standing.finish, ?_, ?_,
      .inl (Nat.zero_le _)⟩
    · change ∀ token, Item.token token ∈ t.upcoming → _
      rw [same]
      exact h.standing.ends
    · change ∀ fault items, t.upcoming ≠ _
      rw [same]
      exact h.standing.head
  refine .answered (seek_yields within.nesting .finish standing) within (.done ?_)
  rw [same]
  exact h.abort problem le

theorem done {node : Node} (h : s.StandsAt d) : EndsAt d (.done (node, s)) := Meets.done h

theorem leave {node : Node} (h : s.StandsAt (d + 1)) : EndsAt d (Plan.leave node s) :=
  done h.leave

/-- A level is opened if there is room for it, and what is read inside ends with closing it. -/
theorem enter (h : s.StandsAt d) (rest : ∀ {t : State}, t.StandsAt (d + 1) → EndsAt d (next t)) :
    EndsAt d (Plan.enter s node next) := by
  rw [Plan.enter]
  split
  · rename_i room
    exact rest (h.enter (h.within.depth_eq ▸ room))
  · exact giveUp h h.within.operators

/-- An operator is counted after it was read, so the limit was not passed before it. -/
theorem count (h : s.StandsAt d) (le : s.operators ≤ maxOperators)
    (rest : ∀ {t : State}, t.StandsAt d → EndsAt d (next t)) :
    EndsAt d (Plan.count s node next) := by
  rw [Plan.count]
  split
  · rename_i within
    exact rest (h.recount within)
  · exact giveUp h (Nat.succ_le_succ le)

/-- The word that is current is read, and counted as an operator. -/
theorem word (h : s.StandsAt d) (inside : s.current.kind ≠ .endOfInput)
    (rest : ∀ {t : State}, t.StandsAt d → EndsAt d (next t)) :
    EndsAt d (Plan.advance s fun s => Plan.count s node next) :=
  advance h (count h.advance (s.advance_operators ▸ h.operators_le inside) rest)

/-- A part of a program is read, at the depth at which the plan is by then. -/
theorem read {r : Routine} {next : Node × State → Plan} (part : r.isPart = true)
    (h : s.StandsAt e)
    (rest : ∀ {node : Node} {t : State}, t.StandsAt e → EndsAt d (next (node, t))) :
    EndsAt d (.call r s next) :=
  .call (balance_relies part h) fun _ _ ends =>
    rest (h.within.depth_eq ▸ balance_guarantees part ends)

/-- A list of statements ends where it starts, if the list of a program starts at depth zero. -/
theorem list {inBlock : Bool} {found : List Node} {next : Node × State → Plan} (h : s.StandsAt e)
    (outer : inBlock = false → e = 0)
    (rest : ∀ {node : Node} {t : State}, t.StandsAt e → EndsAt d (next (node, t))) :
    EndsAt d (.call (.statements inBlock found) s next) :=
  .call ⟨h.at_depth, fun program => h.within.depth_eq.trans (outer program)⟩ fun _ _ ends =>
    rest (h.within.depth_eq ▸ ends)

/-- The operator is counted, or there are too many and the plan gives up. -/
theorem operator {rank : Rank} {left : Node} {next : Node → State → Plan} (h : s.StandsAt d)
    (rest : ∀ {node : Node} {t : State}, t.StandsAt d → EndsAt d (next node t)) :
    EndsAt d (Plan.operator rank left s next) := by
  rw [Plan.operator]
  split
  · exact .done h
  · rename_i join joins
    refine word h (rank.rung_ends.inside joins) fun counted => ?_
    exact read rfl (counted.checkOperand _ _) fun right => rest (right.checkOperand _ _)

theorem operands {rank : Rank} {next : Node → State → Plan} (h : s.StandsAt e)
    (rest : ∀ {node : Node} {t : State}, t.StandsAt e → EndsAt d (next node t)) :
    EndsAt d (Plan.operands rank s next) :=
  read rfl h fun left => read rfl left rest

/-- Each kind of operand steps over its token, and a group reads what it holds up to its
parenthesis. -/
theorem primary (h : s.StandsAt d) : EndsAt d (Plan.primary s) := by
  rw [Plan.primary]
  split
  · split
    · exact advance h (done h.advance)
    · exact advance h (done (h.advance.report _))
  · exact advance h (done h.advance)
  · exact advance h (read rfl h.advance fun group => expect group done)
  · exact advance h (done (h.advance.report _))

/-- One case for each rank.  A whole phrase and the two prefix operators open a level, and close it
behind what they read. -/
theorem phrase (h : s.StandsAt d) (rank : Rank) : EndsAt d (Plan.phrase s rank) := by
  cases rank with
  | or =>
      rw [Plan.phrase]
      exact enter h fun inside => operands inside leave
  | and =>
      rw [Plan.phrase]
      exact operands h done
  | not =>
      rw [Plan.phrase]
      split
      · rename_i kind
        exact word h (by rw [kind]; decide) fun counted => enter counted fun inside =>
          read rfl inside leave
      · exact read rfl h done
  | comparison => exact read rfl h fun left => operator left done
  | term =>
      rw [Plan.phrase]
      exact operands h done
  | factor =>
      rw [Plan.phrase]
      exact operands h done
  | unary =>
      rw [Plan.phrase]
      split
      · rename_i kind
        exact word h (by rw [kind]; decide) fun counted => enter counted fun inside =>
          read rfl inside fun operand => done (operand.leave.reportCondition _ _)
      · exact read rfl h done
  | primary => exact primary h

theorem guardOf {kind : Guarded} {next : Node → State → Plan} (h : s.StandsAt e)
    (rest : ∀ {node : Node} {t : State}, t.StandsAt e → EndsAt d (next node t)) :
    EndsAt d (Plan.guardOf kind s next) :=
  advance h (expect h.advance fun opened => read rfl opened fun test => expect test rest)

/-- Whatever a statement is, it is read inside its level and ends with closing it. -/
theorem byKind (h : s.StandsAt (d + 1)) : EndsAt d (Plan.byKind s) := by
  rw [Plan.byKind]
  split
  · refine guardOf h fun test => read rfl test fun branch => ?_
    dsimp only
    split
    · exact advance branch (read rfl branch.advance leave)
    · exact leave branch
  · exact guardOf h fun test => read rfl test leave
  · exact advance h (read rfl h.advance fun value => expect value leave)
  · have inner : true = false → d + 1 = 0 := (absurd · (by decide))
    exact advance h (list h.advance inner fun read => expect read leave)
  · exact advance h (expect h.advance fun sign => read rfl sign fun value => expect value leave)
  · exact advance h (leave (h.advance.report _))

end EndsAt

end Plan

open Plan

/-- Stepping over faults and a token leaves both counters alone. -/
theorem consume_meets {s : State} (h : s.Within s.depth) :
    (plan .consume s).Meets balance (balance.guarantees .consume s) := by
  rw [plan]
  split
  · rename_i fault items same
    have passed : State.Within s.depth { s.report (.lexical fault) with upcoming := items } :=
      ⟨report_depth s _, h.nesting, report_operators s _ ▸ h.operators⟩
    refine .call passed.at_depth fun answer _ ends => .done ?_
    exact (passed.depth_eq ▸ ends : answer.2.Within s.depth)
  · exact .done h

theorem seek_meets {goal : Goal} {s : State} (h : s.Within s.depth) :
    (plan (.seek goal) s).Meets balance (balance.guarantees (.seek goal) s) := by
  rw [plan]
  split
  · exact .done h
  · refine .call ⟨rfl, h.nesting, h.operators⟩ fun _ _ stepped => ?_
    refine .call stepped.at_depth fun answer _ ends => .done ?_
    exact (stepped.depth_eq ▸ ends : answer.2.Within s.depth)

/-- The plan of every routine is balanced. -/
theorem balance_kept : balance.Kept := by
  intro r s relies
  cases r with
  | consume => exact consume_meets relies
  | seek goal => exact seek_meets relies
  | program =>
      obtain ⟨standing, within⟩ := relies
      have begun : (skip (fun _ _ => true) s s.upcoming).StandsAt s.depth :=
        ⟨standing, skip_depth .., within.at_depth.nesting,
          (skip_operators ..).symm ▸ within.operators⟩
      refine .answered (consume_yields within.at_depth.nesting standing.uncounted)
        within.at_depth ?_
      exact EndsAt.list begun (fun _ => within.depth_eq) .done
  | statements inBlock found =>
      obtain ⟨here, outer⟩ := relies
      rw [plan]
      split
      · exact .done here
      · exact EndsAt.read rfl here fun first => .list first outer .done
  | declaration =>
      refine EndsAt.read rfl relies fun {node t} read => ?_
      dsimp only
      split
      · have calm : StandsAt s.depth { t with panicking := false } :=
          ⟨⟨read.standing.finish, read.standing.ends, read.standing.head, read.standing.operators⟩,
            read.within.depth_eq, read.within.nesting, read.within.operators⟩
        exact .answered (seek_yields calm.at_depth.within.nesting .resume calm.standing.uncounted)
          calm.at_depth.within (.done (calm.skip _))
      · exact .done read
  | statement => exact EndsAt.enter relies .byKind
  | expression =>
      exact EndsAt.read rfl (relies.recount (Nat.zero_le _)) fun ends =>
        .done (ends.reportCondition _ _)
  | condition => exact EndsAt.read rfl (relies.recount (Nat.zero_le _)) fun ends => .done ends
  | phrase rank => exact EndsAt.phrase relies rank
  | chain rank left =>
      rw [plan]
      exact EndsAt.operator relies fun joined => .read rfl joined .done

/-! ## Levels that are opened -/

/-- A level of nesting that is opened in a call: `inner` is read one level deeper, from the state
`t` on.  Blocks may have `most` statements. -/
inductive Routine.Opens (most : Nat) : Routine → State → Parser → State → Prop where
  | statement {s : State} {levels : Nat} : s.depth + (levels + 1) = maxNesting →
      Opens most .statement s (statementByKind most levels (WhenLoop.statement most levels)) s
  | group {s : State} {levels : Nat} : s.depth + (levels + 1) = maxNesting →
      Opens most (.phrase .or) s (deeper levels).ladder s
  | negation {s : State} {levels : Nat} : s.depth + (levels + 1) = maxNesting →
      s.current.kind = .not → s.operators < maxOperators →
      Opens most (.phrase .not) s (deeper levels).negated
        { s.advance with operators := s.operators + 1 }
  | negative {s : State} {levels : Nat} : s.depth + (levels + 1) = maxNesting →
      s.current.kind = .minus → s.operators < maxOperators →
      Opens most (.phrase .unary) s (deeper levels).signed
        { s.advance with operators := s.operators + 1 }

namespace Routine.Opens

variable {most : Nat} {r : Routine} {s t : State} {inner : Parser}

/-- What is read inside a level leaves the depth as it was there. -/
theorem depth_eq (h : r.Opens most s inner t) :
    (inner { t with depth := t.depth + 1 }).2.depth = t.depth + 1 := by
  have deepen {levels : Nat} {u : State} (room : s.depth + (levels + 1) = maxNesting)
      (same : u.depth = s.depth) : u.depth + 1 + levels = maxNesting := by omega
  have stepped := s.advance_onward.depth
  cases h with
  | @statement _ levels room =>
      let u : State := { s with depth := s.depth + 1 }
      have body := statementByKind_startsAt (statement_works most levels) most u (deepen room rfl)
      exact (u.advance_onward.trans body.onward).depth
  | @group _ levels room => exact ((deeper_moves levels).ladder _ (deepen room rfl)).onward.depth
  | @negation _ levels room =>
      exact ((deeper_moves levels).negated _ (deepen room stepped)).onward.depth
  | @negative _ levels room =>
      exact ((deeper_moves levels).signed _ (deepen room stepped)).onward.depth

/-- The level is closed where the call comes to its answer. -/
theorem answer_eq (h : r.Opens most s inner t) :
    (r.answer most (maxNesting - s.depth) s).2 = (inner.nested t).2 ∨
      ∃ problem, (r.answer most (maxNesting - s.depth) s).2 =
        (inner.nested t).2.reportPrevious problem := by
  cases h with
  | @statement _ levels room =>
      rw [show maxNesting - s.depth = levels + 1 by omega]
      exact .inl rfl
  | @group _ levels room =>
      rw [show maxNesting - s.depth = levels + 1 by omega]
      exact .inl rfl
  | @negation _ levels room kind lt =>
      rw [show maxNesting - s.depth = levels + 1 by omega]
      left
      simp only [answer, Deeper.phrase, Deeper.negated, if_pos kind, Parser.counted,
        s.advance_operators, if_pos (show s.operators + 1 ≤ maxOperators from lt)]
      rfl
  | @negative _ levels room kind lt =>
      rw [show maxNesting - s.depth = levels + 1 by omega]
      simp only [answer, Deeper.phrase, Deeper.signed, if_pos kind, Parser.counted,
        s.advance_operators, if_pos (show s.operators + 1 ≤ maxOperators from lt)]
      let read := (deeper levels).signed.nested { s.advance with operators := s.operators + 1 }
      change read.2.reportCondition .conditionForOperand read.1 = _ ∨
        ∃ problem, read.2.reportCondition .conditionForOperand read.1 = _
      rw [reportCondition]
      split
      · exact .inr ⟨_, rfl⟩
      · exact .inl rfl

end Routine.Opens

/-! ## Whole sources -/

section Source

variable {source : String}

/-- A parse starts at depth zero with no operator counted. -/
theorem before_relies (source : String) : balance.relies .program (.before (scan source)) := by
  refine ⟨?_, rfl, Nat.zero_le _, Nat.zero_le _⟩
  have begun := ofScan_standing (scan_ended source)
  rwa [ofScan_eq_skip] at begun

/-- Every call of every parse is made as the contract asks. -/
theorem Called.relies {r : Routine} {s : State} (called : Called source r s) :
    balance.relies r s :=
  balance_kept.called (before_relies source) called

/-- At every moment of a parse the counters are within their bounds. -/
theorem momentAt_within (source : String) (n : Nat) :
    ∃ depth, (momentAt source n).state.Within depth := by
  obtain ⟨r, s, meets⟩ := balance_kept.momentAt (before_relies source) n
  rw [Moment.state]
  generalize (momentAt source n).plan = p at meets
  cases meets with
  | done ends => exact ⟨_, balance_guarantees_within ends⟩
  | call relies _ => exact ⟨_, balance_relies_within relies⟩

/-- A parse that gave up is in panic, and a parse in panic has counted a report. -/
theorem momentAt_reported {n : Nat} (wrong : (momentAt source n).state.panicking = true ∨
    (momentAt source n).state.aborted = true) : 1 ≤ (momentAt source n).state.errors := by
  rcases wrong with panic | gaveUp
  · exact momentAt_counted source n panic
  · obtain ⟨m, problem, lt, passes⟩ := (aborted_iff source n).mp gaveUp
    exact momentAt_counted source n (gaveUp_of_passes passes lt).panicking

end Source

/-- The counters of a parse are balanced.  Every call that is made while a source is read comes
back with the depth it was made with, also when something was wrong or the parse gave up.  What is
read inside a level that a call opens comes back with the depth of that level, so closing it takes
one from a depth that is not zero.  At every moment neither counter is past its bound, and a
parse that panics or gave up has counted a report.  Between the statements of a program the depth
is zero. -/
theorem parse_balanced (source : String) :
    (∀ r s, Called source r s → ∃ answer, (plan r s).Yields answer ∧ answer.2.depth = s.depth) ∧
    (∀ r s inner t, Called source r s →
      r.Opens (ofScan (scan source)).upcoming.length s inner t →
      (inner { t with depth := t.depth + 1 }).2.depth = t.depth + 1 ∧
      ∃ answer, (plan r s).Yields answer ∧ (answer.2 = (inner.nested t).2 ∨
        ∃ problem, answer.2 = (inner.nested t).2.reportPrevious problem)) ∧
    (∀ n, let s := (momentAt source n).state
      s.depth ≤ maxNesting ∧ s.operators ≤ maxOperators + 1 ∧
      (s.panicking = true ∨ s.aborted = true → 1 ≤ s.errors)) ∧
    ∀ found s, Called source (.statements false found) s → s.depth = 0 := by
  refine ⟨fun r s called => ?_, fun r s inner t called opens => ?_, fun n => ?_,
    fun found s called => called.relies.2 rfl⟩
  · have yields := called.yields
    have ends := balance_kept.yields yields (balance_kept r s called.relies)
    exact ⟨_, yields, (balance_guarantees_within ends).depth_eq⟩
  · exact ⟨opens.depth_eq, _, called.yields, opens.answer_eq⟩
  · obtain ⟨depth, within⟩ := momentAt_within source n
    exact ⟨within.at_depth.nesting, within.operators, momentAt_reported⟩

end WhenLoop
