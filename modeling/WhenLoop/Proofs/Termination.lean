import WhenLoop.Proofs.Moves
import WhenLoop.Proofs.Routines
import WhenLoop.Proofs.Scanning
import WhenLoop.Proofs.Soundness

/-!
# Every parse ends, and reads everything

`plan` says what is read without saying that reading ends.  Here it is shown to end, and to give
what the parsers give.  From every call to those it makes, either less is left to read, or as much
is and the routine called is further down (`Routine.Descends`).  So the proof is an induction
along this order (`Routine.settles`), with one lemma for each thing that a plan does.

What the parsers have and the routines do not have are bounds.  So the proof also has to say that
no bound is ever felt.  A chain is never stopped by its bound, because an operator past the limit
leaves nothing to read (`Rung.chain_congr`).  Neither is a list of statements, because every
statement takes something away from what is left to read (`statementList_congr`).
-/

namespace WhenLoop

open Grammar (Rank)
open State

/-! ## Stepping in parts -/

namespace State

variable {s : State}

theorem report_with_upcoming (s : State) (items : List Item) (r : Report) :
    report { s with upcoming := items } r = { s.report r with upcoming := items } := by
  rw [report, report]
  split <;> rfl

/-- What is to be read is given to `skip` apart, so what the state says of it does not matter. -/
theorem skip_with_upcoming (stop : Token → Token → Bool) (s : State) (old items : List Item) :
    skip stop { s with upcoming := old } items = skip stop s items := by
  induction items generalizing s with
  | nil => rfl
  | cons item items ih =>
      cases item with
      | fault fault => rw [skip, skip, report_with_upcoming, ih]
      | token t =>
          rw [skip, skip]
          split
          · rfl
          · exact ih { s with previous := t }

/-- To step to a token and then on is to step on. -/
theorem skip_resume (stop : Token → Token → Bool) (s : State) (items : List Item) :
    skip stop (skip (fun _ _ => true) s items) (skip (fun _ _ => true) s items).upcoming =
      skip stop s items := by
  induction items generalizing s with
  | nil => rfl
  | cons item items ih =>
      cases item with
      | fault fault => exact ih (s.report (.lexical fault))
      | token t => exact skip_with_upcoming stop s _ _

theorem skip_of_nil (stop : Token → Token → Bool) (none : s.upcoming = []) :
    skip stop s s.upcoming = s := by
  rw [none, skip, ← none]

/-- Where the goal is reached no step is made. -/
theorem skip_of_stop {stop : Token → Token → Bool} {items : List Item}
    (same : s.upcoming = .token s.current :: items) (here : stop s.previous s.current = true) :
    skip stop s s.upcoming = s := by
  rw [same, skip, if_pos here, ← same]

/-- At a token no fault is passed over. -/
theorem skip_here (h : ∀ fault items, s.upcoming ≠ .fault fault :: items) :
    skip (fun _ _ => true) s s.upcoming = s := by
  cases same : s.upcoming with
  | nil => rw [skip, ← same]
  | cons item items =>
      cases item with
      | fault fault => exact absurd same (h fault items)
      | token t => rw [skip, if_pos rfl, ← same]

/-- To step over a token and then on is to step on. -/
theorem skip_advance {stop : Token → Token → Bool} {items : List Item}
    (same : s.upcoming = .token s.current :: items) (goesOn : ¬stop s.previous s.current = true) :
    skip stop s.advance s.advance.upcoming = skip stop s s.upcoming := by
  have tail : s.upcoming.tail = items := by rw [same, List.tail_cons]
  have step : skip stop s s.upcoming = skip stop { s with previous := s.current } items :=
    (congrArg (skip stop s) same).trans (if_neg goesOn)
  rw [step, advance, skip_resume, tail]

/-- What the operators do not decide. -/
theorem Standing.uncounted (h : s.Standing) : Standing { s with operators := 0 } :=
  ⟨h.finish, h.ends, h.head, .inl (Nat.zero_le _)⟩

theorem advance_length_le (s : State) : s.advance.upcoming.length ≤ s.upcoming.tail.length :=
  (skip_upcoming_suffix ..).length_le

end State

/-! ## Bounds that are not felt -/

namespace Rung

variable {rung : Rung} {operand : Parser} {levels : Nat}

/-- What a chain does between an operator and the next. -/
theorem operand_moves (rung : Rung) (h : operand.MovesAt levels) (left : Node) {s : State}
    (room : s.depth + levels = maxNesting) :
    let right := operand (rung.checkOperand s left)
    s.Moves (rung.checkOperand right.2 right.1) :=
  (h.after (rung.checkOperand_moves s left) room).trans (rung.checkOperand_moves _ _)

/-- Two bounds on a chain make no difference if both allow for all operators up to the limit. -/
theorem chain_congr (ends : rung.Ends) (h : operand.MovesAt levels) :
    ∀ (bound bound' : Nat) (left : Node) (s : State), s.Standing → s.depth + levels = maxNesting →
      maxOperators < s.operators + bound → maxOperators < s.operators + bound' →
      rung.chain operand bound left s = rung.chain operand bound' left s := by
  intro bound
  induction bound with
  | zero =>
      intro bound' left s standing room enough enough'
      -- the limit is passed, so nothing is left that could join
      have none : s.upcoming = [] := standing.operators.resolve_left (by omega)
      have last : rung.join? s.current.kind = .none := by rw [standing.kind_of_nil none, ends]
      rw [chain_of_none last, chain_of_none last]
  | succ bound ih =>
      intro bound' left s standing room enough enough'
      cases joins : rung.join? s.current.kind with
      | none => rw [chain_of_none joins, chain_of_none joins]
      | some join =>
          have within : s.operators ≤ maxOperators :=
            standing.operators.resolve_right fun none =>
              ends.inside joins (standing.kind_of_nil none)
          obtain ⟨bound', rfl⟩ : ∃ b, bound' = b + 1 := ⟨bound' - 1, by omega⟩
          rw [chain_of_some joins, chain_of_some joins, Parser.counted, Parser.counted]
          dsimp only
          split
          · rename_i le
            have counted : s.Moves { s.advance with operators := s.advance.operators + 1 } :=
              .trans (.advance s) (.count _ le)
            have read := rung.operand_moves h left (counted.onward.depth ▸ room)
            have onward := (counted.trans read).onward
            have same := s.advance_operators
            have still : ∀ b, maxOperators < s.operators + (b + 1) → maxOperators < _ + b :=
              fun b lt => Nat.lt_of_lt_of_le (m := s.advance.operators + 1 + b) (by omega)
                (Nat.add_le_add_right read.operators_le b)
            exact ih _ _ _ (onward.standing standing) (onward.depth ▸ room) (still _ enough)
              (still _ enough')
          · rfl

end Rung

/-- A statement with its recovery, as a plan has it: a parse in panic that was not given up seeks
the next statement. -/
theorem recovering_eq_seek (p : Parser) (s : State) :
    recovering p s = ((p s).1,
      if (p s).2.panicking && !(p s).2.aborted then
        skip (resumes (p s).2.depth) { (p s).2 with panicking := false } (p s).2.upcoming
      else (p s).2) := by
  simp only [recovering, recover]
  cases panic : (p s).2.panicking <;> cases gaveUp : (p s).2.aborted <;> simp

/-- Away from the end a statement takes something away from what is left to read. -/
theorem recovering_shortens (most : Nat) {levels : Nat} {s : State} (standing : s.Standing)
    (room : s.depth + levels = maxNesting) (inside : s.current.kind ≠ .endOfInput) :
    (recovering (statement most levels) s).2.upcoming.length < s.upcoming.length := by
  have shorter : (statement most levels s).2.upcoming.length < s.upcoming.length := by
    cases levels with
    | zero =>
        obtain ⟨items, same⟩ := standing.upcoming_eq inside
        rw [statement, Parser.tooDeep, abort_upcoming, same]
        exact Nat.zero_lt_succ _
    | succ levels =>
        have body := statementByKind_startsAt (statement_works most levels) most
          { s with depth := s.depth + 1 } (by simp only; omega)
        have deeper : Standing { s with depth := s.depth + 1 } :=
          ⟨standing.finish, standing.ends, standing.head, standing.operators⟩
        exact Nat.lt_of_le_of_lt body.onward.length_le (deeper.advance_lt inside)
  rw [recovering]
  dsimp only
  split
  · exact Nat.lt_of_le_of_lt (recover_onward _).length_le shorter
  · exact shorter

section List

variable {stop : TokenKind → Bool} {most levels : Nat}

/-- A list that stops at once is empty, whatever its bound is. -/
theorem statementList_of_stop {p : Parser} {s : State}
    (here : (s.atEnd || stop s.current.kind) = true) (bound : Nat) :
    statementList stop p bound s = ([], s) := by
  cases bound with
  | zero => rfl
  | succ bound => rw [statementList, if_pos here]

/-- Two bounds on a list of statements make no difference if both allow for all that is left to
read. -/
theorem statementList_congr :
    ∀ (bound bound' : Nat) (s : State), s.Standing → s.depth + levels = maxNesting →
      s.upcoming.length ≤ bound → s.upcoming.length ≤ bound' →
      statementList stop (statement most levels) bound s =
        statementList stop (statement most levels) bound' s := by
  intro bound
  induction bound with
  | zero =>
      intro bound' s standing room enough enough'
      have last : s.atEnd = true :=
        decide_eq_true (standing.kind_of_nil (List.length_eq_zero_iff.mp (by omega)))
      have here : (s.atEnd || stop s.current.kind) = true := by rw [last]; rfl
      rw [statementList_of_stop here, statementList_of_stop here]
  | succ bound ih =>
      intro bound' s standing room enough enough'
      cases here : s.atEnd || stop s.current.kind with
      | true => rw [statementList_of_stop here, statementList_of_stop here]
      | false =>
          have inside : s.current.kind ≠ .endOfInput :=
            of_decide_eq_false (Bool.or_eq_false_iff.mp here).1
          have shorter := recovering_shortens most standing room inside
          have onward := (recovering_worksAt (statement_works most levels) s room).onward
          obtain ⟨bound', rfl⟩ : ∃ b, bound' = b + 1 := ⟨bound' - 1, by omega⟩
          rw [statementList, statementList, if_neg (by simp [here]), if_neg (by simp [here])]
          dsimp only
          rw [ih bound' _ (onward.standing standing) (onward.depth ▸ room) (by omega) (by omega)]

/-- A list of statements is read up to the end of the source or the token that ends it. -/
theorem statementList_ends :
    ∀ (bound : Nat) (s : State), s.Standing → s.depth + levels = maxNesting →
      s.upcoming.length ≤ bound →
      let last := (statementList stop (statement most levels) bound s).2
      (last.atEnd || stop last.current.kind) = true := by
  intro bound
  induction bound with
  | zero =>
      intro s standing room enough
      have last : s.atEnd = true :=
        decide_eq_true (standing.kind_of_nil (List.length_eq_zero_iff.mp (by omega)))
      simp only [statementList, last, Bool.true_or]
  | succ bound ih =>
      intro s standing room enough
      rw [statementList]
      split
      · assumption
      · rename_i goesOn
        have inside : s.current.kind ≠ .endOfInput := fun last =>
          goesOn (by rw [State.atEnd, decide_eq_true last]; rfl)
        have shorter := recovering_shortens most standing room inside
        have onward := (recovering_worksAt (statement_works most levels) s room).onward
        exact ih _ (onward.standing standing) (onward.depth ▸ room) (by omega)

end List

/-! ## Answers -/

/-- The parser of a phrase of the ladder. -/
def Deeper.phrase (d : Deeper) : Rank → Parser
  | .or => d.group
  | .and => Rung.conjunction.many d.negated
  | .not => d.negated
  | .comparison => d.comparison
  | .term => Rung.sum.many (Rung.product.many d.signed)
  | .factor => Rung.product.many d.signed
  | .unary => d.signed
  | .primary => d.primary

/-- The parsers of the ladder only make moves. -/
theorem phrase_movesAt (levels : Nat) (rank : Rank) :
    ((deeper levels).phrase rank).MovesAt levels := by
  have moves := deeper_moves levels
  cases rank with
  | or => exact moves.group
  | and => exact Rung.many_movesAt moves.negated
  | not => exact moves.negated
  | comparison => exact moves.comparison
  | term => exact Rung.many_movesAt (Rung.many_movesAt moves.signed)
  | factor => exact Rung.many_movesAt moves.signed
  | unary => exact moves.signed
  | primary => exact moves.primary

theorem Grammar.Rank.rung_ends (rank : Rank) : rank.rung.Ends := by
  cases rank <;> rfl

namespace Routine

/-- What a routine answers, in terms of the parsers.  A block may have `most` statements, and
`levels` more levels of nesting may be opened. -/
def answer (most levels : Nat) : Routine → Parser
  | consume => fun s => (.seq [], skip (fun _ _ => true) s s.upcoming)
  | seek goal => fun s => (.seq [], skip (goal.between s.depth) s s.upcoming)
  | program => fun s =>
      let (nodes, s) := statementList (listEnd false) (WhenLoop.statement most levels) most
        (skip (fun _ _ => true) s s.upcoming)
      (.seq nodes, s)
  | statements inBlock found => fun s =>
      let (nodes, s) := statementList (listEnd inBlock) (WhenLoop.statement most levels) most s
      (.seq (found ++ nodes), s)
  | declaration => recovering (WhenLoop.statement most levels)
  | statement => WhenLoop.statement most levels
  | expression => WhenLoop.expression levels
  | condition => WhenLoop.condition levels
  | phrase rank => (deeper levels).phrase rank
  | chain rank left => rank.rung.chain ((deeper levels).phrase rank.tighter) (maxOperators + 1) left

/-- Whether a routine may be called in a state.  The routines that step over tokens may be called
past the operator limit, and `consume` and `program` at a fault. -/
def Ready (most : Nat) : Routine → State → Prop
  | consume, s => Standing { skip (fun _ _ => true) s s.upcoming with operators := 0 }
  | seek _, s => Standing { s with operators := 0 }
  | program, s =>
      let s := skip (fun _ _ => true) s s.upcoming
      s.Standing ∧ s.upcoming.length ≤ most
  | _, s => s.Standing ∧ s.upcoming.length ≤ most

variable {most levels : Nat} {r r' : Routine} {s t u : State}

theorem descends_of_le (le : t.upcoming.length ≤ s.upcoming.length) (lower : r'.height < r.height) :
    r.Descends s r' t :=
  (Nat.lt_or_eq_of_le le).imp_right fun same => ⟨same, lower⟩

/-! ## What a plan does, one thing at a time

Throughout, `r` is the routine whose plan is looked at and `s` the state it was called in. -/

/-- The induction hypothesis: the calls further down have their answers. -/
def Below (most : Nat) (r : Routine) (s : State) : Prop :=
  ∀ r' t levels, r.Descends s r' t → r'.Ready most t → t.depth + levels = maxNesting →
    (plan r' t).Yields (r'.answer most levels t)

/-- The plan comes to its end with this answer, all its calls are further down, and they are made
in states in which the routines may be called. -/
abbrev Ends (most : Nat) (r : Routine) (s : State) : Plan → Node × State → Prop :=
  Plan.Settles fun r' t => r.Descends s r' t ∧ r'.Ready most t ∧ t.depth ≤ maxNesting

/-- A state that the plan comes to, when `levels` more levels of nesting may be opened. -/
structure Reached (most levels : Nat) (s t : State) : Prop where
  standing : t.Standing
  left : t.upcoming.length ≤ s.upcoming.length
  most : s.upcoming.length ≤ most
  room : t.depth + levels = maxNesting

namespace Reached

/-- In a state that was reached every routine of the ladder and of statements may be called. -/
theorem ready (h : Reached most levels s t) : t.Standing ∧ t.upcoming.length ≤ most :=
  ⟨h.standing, Nat.le_trans h.left h.most⟩

/-- What a parse never undoes leads to a state that is reached. -/
theorem onward (h : Reached most levels s t) (step : t.Onward u) : Reached most levels s u where
  standing := step.standing h.standing
  left := Nat.le_trans step.length_le h.left
  most := h.most
  room := step.depth ▸ h.room

/-- Inside one more level the state is reached, with one level less to open. -/
theorem enter (h : Reached most (levels + 1) s t) :
    Reached most levels s { t with depth := t.depth + 1 } where
  standing := ⟨h.standing.finish, h.standing.ends, h.standing.head, h.standing.operators⟩
  left := h.left
  most := h.most
  room := (Nat.add_right_comm t.depth 1 levels).trans h.room

/-- The count of operators within the limit does not matter to what is reached. -/
theorem recount (h : Reached most levels s t) {operators : Nat} (le : operators ≤ maxOperators) :
    Reached most levels s { t with operators := operators } where
  standing := ⟨h.standing.finish, h.standing.ends, h.standing.head, .inl le⟩
  left := h.left
  most := h.most
  room := h.room

/-- Behind a token less is left to read. -/
theorem advance_lt (h : Reached most levels s t) (inside : t.current.kind ≠ .endOfInput) :
    t.advance.upcoming.length < s.upcoming.length :=
  Nat.lt_of_lt_of_le (h.standing.advance_lt inside) h.left

end Reached

/-- A plan that branches comes to its end if both branches do. -/
theorem settles_ite {c : Prop} [Decidable c] {p q : Plan} {result : Node × State}
    (yes : c → Ends most r s p result) (no : ¬c → Ends most r s q result) :
    Ends most r s (if c then p else q) result := by
  split
  · exact yes ‹_›
  · exact no ‹_›

namespace Below

variable {next : State → Plan} {result : Node × State} (ih : Below most r s)
include ih

/-- A plan that calls a routine further down comes to its end if it does so with the answer. -/
theorem call {next : Node × State → Plan} (descends : r.Descends s r' t)
    (ready : r'.Ready most t) (room : t.depth + levels = maxNesting)
    (rest : Ends most r s (next (r'.answer most levels t)) result) :
    Ends most r s (.call r' t next) result :=
  .call ⟨descends, ready, Nat.le_trans (Nat.le_add_right _ _) (Nat.le_of_eq room)⟩
    (ih r' t levels descends ready room) rest

/-- To step over a token is to call `consume` behind it. -/
theorem advance (standing : Standing { t with operators := 0 })
    (left : t.upcoming.length ≤ s.upcoming.length) (room : t.depth + levels = maxNesting)
    (high : 0 < r.height) (rest : Ends most r s (next t.advance) result) :
    Ends most r s (Plan.advance t next) result := by
  have step : skip (fun _ _ => true) { t with previous := t.current, upcoming := t.upcoming.tail }
      t.upcoming.tail = t.advance := skip_with_upcoming _ { t with previous := t.current } _ _
  have uncounted : Standing { t.advance with operators := 0 } := by
    have onward := t.advance_onward
    exact ⟨onward.finish ▸ standing.finish,
      fun u mem => standing.ends u (onward.upcoming.subset mem),
      skip_head _ _ _, .inl (Nat.zero_le _)⟩
  have fewer : t.upcoming.tail.length ≤ s.upcoming.length :=
    Nat.le_trans (List.tail_suffix _).length_le left
  refine ih.call (descends_of_le fewer high) ?_ room ?_
  · rw [Ready, step]
    exact uncounted
  · rw [answer]
    dsimp only
    rw [step]
    exact rest

/-- To step over a token from a state that was reached. -/
theorem step (h : Reached most levels s t) (high : 0 < r.height)
    (rest : Ends most r s (next t.advance) result) : Ends most r s (Plan.advance t next) result :=
  ih.advance h.standing.uncounted h.left h.room high rest

/-- To expect a token is to step over it or to report it. -/
theorem expect {kind : TokenKind} {problem : Problem} (h : Reached most levels s t)
    (high : 0 < r.height) (rest : Ends most r s (next (t.expect kind problem)) result) :
    Ends most r s (Plan.expect t kind problem next) result := by
  rw [State.expect] at rest
  rw [Plan.expect]
  split
  · rename_i same
    rw [if_pos same] at rest
    exact ih.step h high rest
  · rename_i other
    rwa [if_neg other] at rest

/-- To give up is to seek the end of the source, and this is what the parsers do as well. -/
theorem giveUp {problem : Problem} {node : Node} (standing : Standing { t with operators := 0 })
    (left : t.upcoming.length ≤ s.upcoming.length) (room : t.depth + levels = maxNesting)
    (high : 1 < r.height) : Ends most r s (Plan.giveUp t problem node) (node, t.abort problem) := by
  have onward := t.report_onward (.atToken t.current problem)
  refine ih.call (descends_of_le (Nat.le_trans onward.length_le left) high) ?_
    (onward.depth ▸ room) ?_
  · exact ⟨onward.finish ▸ standing.finish,
      fun u mem => standing.ends u (onward.upcoming.subset mem),
      by rw [reportCurrent, report_upcoming]; exact standing.head, .inl (Nat.zero_le _)⟩
  · rw [State.abort, ← report_upcoming t (.atToken t.current problem)]
    exact .done _

/-- With no level left a plan that opens one gives up. -/
theorem refuse {node : Node} {next : State → Plan} (h : Reached most 0 s t)
    (high : 1 < r.height) : Ends most r s (Plan.enter t node next) (Parser.tooDeep node t) := by
  rw [Plan.enter, if_neg (by have := h.room; omega)]
  exact ih.giveUp h.standing.uncounted h.left h.room high

/-- An operator is counted and the plan goes on, or it passes the limit and the plan gives up. -/
theorem count {node : Node} {p : Parser} (h : Reached most levels s t) (high : 1 < r.height)
    (rest : t.operators + 1 ≤ maxOperators →
      Ends most r s (next { t with operators := t.operators + 1 })
        (p { t with operators := t.operators + 1 })) :
    Ends most r s (Plan.count t node next) (p.counted node t) := by
  rw [Plan.count, Parser.counted]
  dsimp only
  split
  · rename_i le
    exact rest le
  · exact ih.giveUp ⟨h.standing.finish, h.standing.ends, h.standing.head, .inl (Nat.zero_le _)⟩
      h.left h.room high

/-- One operator of a chain.  Without a bound on them, the plan goes on where the chain does. -/
theorem operator {rank : Rank} {left : Node} {bound : Nat} {next : Node → State → Plan}
    (h : Reached most levels s t) (high : 1 < r.height)
    (rest : ∀ node u, Reached most levels s u → u.upcoming.length < s.upcoming.length →
      0 < u.operators → Ends most r s (next node u)
        (rank.rung.chain ((deeper levels).phrase rank.tighter) bound node u)) :
    Ends most r s (Plan.operator rank left t next)
      (rank.rung.chain ((deeper levels).phrase rank.tighter) (bound + 1) left t) := by
  rw [Plan.operator]
  split
  · rename_i none
    rw [Rung.chain_of_none none]
    exact .done _
  · rename_i join some
    rw [Rung.chain_of_some some]
    have shorter := h.advance_lt (rank.rung_ends.inside some)
    have stepped := h.onward t.advance_onward
    refine ih.step h (by omega) (ih.count stepped high fun le => ?_)
    have counted := stepped.recount le
    have checked := rank.rung.checkOperand_moves
      { t.advance with operators := t.advance.operators + 1 } left
    have read := rank.rung.operand_moves (phrase_movesAt levels rank.tighter) left counted.room
    refine ih.call (.inl ?_) (counted.onward checked.onward).ready
      (counted.onward checked.onward).room ?_
    · exact Nat.lt_of_le_of_lt checked.onward.length_le shorter
    · exact rest _ _ (counted.onward read.onward)
        (Nat.lt_of_le_of_lt read.onward.length_le shorter)
        (Nat.lt_of_lt_of_le (Nat.succ_pos _) read.operators_le)

/-- Operands with operators between them are the chain that the parsers read. -/
theorem operands (rank : Rank) {next : Node → State → Plan} (h : Reached most levels s t)
    (descends : r.Descends s (.phrase rank.tighter) t) (high : 4 < r.height)
    (rest : let many := rank.rung.many ((deeper levels).phrase rank.tighter) t
      Ends most r s (next many.1 many.2) result) :
    Ends most r s (Plan.operands rank t next) result := by
  have first := h.onward (phrase_movesAt levels rank.tighter t h.room).onward
  exact ih.call descends h.ready h.room (ih.call (descends_of_le first.left high) first.ready
    first.room rest)

/-- A rank whose plan ends with its chain. -/
theorem many (rank : Rank) (h : Reached most levels s t)
    (descends : r.Descends s (.phrase rank.tighter) t) (high : 4 < r.height) :
    Ends most r s (Plan.operands rank t fun node u => .done (node, u))
      (rank.rung.many ((deeper levels).phrase rank.tighter) t) :=
  ih.operands rank h descends high (.done _)

/-- An operand behind its prefix operator, one level deeper.  `field` is its parser. -/
theorem operand {rank : Rank} (field : Deeper → Parser) {next : Node × State → Plan}
    (h : Reached most levels s t) (inside : t.current.kind ≠ .endOfInput) (high : 1 < r.height)
    (last : field .exhausted = .tooDeep (.num 0))
    (rest : ∀ k u, Ends most r s (next ((deeper k).phrase rank { u with depth := u.depth + 1 }))
      (field (deeper k).next u)) :
    Ends most r s
      (Plan.advance t fun u => Plan.count u (.num 0) fun u => Plan.enter u (.num 0) fun u =>
        .call (.phrase rank) u next)
      ((field (deeper levels)).counted (.num 0) t.advance) := by
  have stepped := h.onward t.advance_onward
  refine ih.step h (by omega) (ih.count stepped high fun le => ?_)
  have counted := stepped.recount le
  cases levels with
  | zero =>
      rw [deeper, last]
      exact ih.refuse counted high
  | succ levels =>
      have room := counted.room
      rw [Plan.enter, if_pos (by omega)]
      exact ih.call (.inl (h.advance_lt inside)) counted.enter.ready counted.enter.room
        (rest levels _)

/-- A plan goes on behind a statement that is called. -/
theorem statement {next : Node × State → Plan} (h : Reached most levels s t)
    (descends : r.Descends s .statement t)
    (rest : Ends most r s (next (WhenLoop.statement most levels t)) result) :
    Ends most r s (.call .statement t next) result :=
  ih.call descends h.ready h.room rest

/-- A plan goes on behind the condition of a statement. -/
theorem guardOf {kind : Guarded} {next : Node → State → Plan} (h : Reached most levels s t)
    (high : condition.height < r.height)
    (rest : let guarded := WhenLoop.guardOf kind levels t
      Ends most r s (next guarded.1 guarded.2) result) :
    Ends most r s (Plan.guardOf kind t next) result := by
  have low : 0 < r.height := Nat.lt_of_le_of_lt (Nat.zero_le _) high
  have stepped := h.onward t.advance_onward
  have opened := stepped.onward (expect_moves _ .openParen (.expectedOpenParen kind)).onward
  have read := opened.onward (condition_works opened.room (.refl _)).onward
  exact ih.step h low (ih.expect stepped low (ih.call (descends_of_le opened.left high) opened.ready
    opened.room (ih.expect read low rest)))

end Below

/-! ## Each routine -/

/-- Faults are passed over one by one, and each call has one item less to read. -/
theorem consume_ends (ih : Below most .consume s) (ready : Ready most .consume s)
    (room : s.depth + levels = maxNesting) :
    Ends most .consume s (plan .consume s) (answer most levels .consume s) := by
  simp only [plan]
  split
  · rename_i fault items same
    have step : skip (fun _ _ => true) { s.report (.lexical fault) with upcoming := items } items =
        skip (fun _ _ => true) s s.upcoming := by rw [skip_with_upcoming, same, skip]
    refine ih.call (.inl ?_) ?_ ((report_depth s _).symm ▸ room) ?_
    · rw [same]
      exact Nat.lt_succ_self _
    · rw [Ready, step]
      exact ready
    · simp only [answer, step]
      exact .done _
  · rename_i other
    simp only [answer, skip_here other]
    exact .done _

/-- The goal is sought token by token, and each call has one token less to read. -/
theorem seek_ends {goal : Goal} (ih : Below most (.seek goal) s) (ready : Ready most (.seek goal) s)
    (room : s.depth + levels = maxNesting) :
    Ends most (.seek goal) s (plan (.seek goal) s) (answer most levels (.seek goal) s) := by
  simp only [plan, answer]
  have standing : Standing { s with operators := 0 } := ready
  cases last : s.atEnd with
  | true =>
      have none : s.upcoming = [] := standing.upcoming_of_end (of_decide_eq_true last)
      rw [skip_of_nil _ none]
      exact .done _
  | false =>
      obtain ⟨items, same⟩ := standing.upcoming_eq (of_decide_eq_false last)
      have same : s.upcoming = .token s.current :: items := same
      cases here : goal.between s.depth s.previous s.current with
      | true =>
          rw [skip_of_stop same here]
          exact .done _
      | false =>
          have depth := s.advance_onward.depth
          have stepped : Ready most (.seek goal) s.advance :=
            ⟨s.advance_onward.finish ▸ standing.finish,
              fun t mem => standing.ends t (s.advance_onward.upcoming.subset mem),
              skip_head _ _ _, .inl (Nat.zero_le _)⟩
          rw [if_neg (by decide)]
          refine ih.advance standing (Nat.le_refl _) room (Nat.zero_lt_one)
            (ih.call (.inl ?_) stepped (depth ▸ room) ?_)
          · refine Nat.lt_of_le_of_lt s.advance_length_le ?_
            rw [same]
            exact Nat.lt_succ_self _
          · simp only [answer, depth, skip_advance same (ne_true_of_eq_false here)]
            exact .done _

/-- The plan of a primary ends with what the parser reads. -/
theorem primary_ends (ih : Below most (.phrase .primary) s) (h : Reached most levels s s) :
    Ends most (.phrase .primary) s (Plan.primary s) ((deeper levels).primary s) := by
  have low : 0 < (phrase .primary).height := by decide
  cases kind : s.current.kind with
  | number =>
      simp only [Plan.primary, Deeper.primary, kind]
      cases literal? s.current.text.toList with
      | some value => exact ih.step h low (.done _)
      | none => exact ih.step h low (.done _)
  | openParen =>
      have shorter := h.advance_lt (by rw [kind]; decide)
      have stepped := h.onward s.advance_onward
      have read := stepped.onward ((deeper_moves levels).group _ stepped.room).onward
      simp only [Plan.primary, Deeper.primary, kind]
      exact ih.step h low (ih.call (.inl shorter) stepped.ready stepped.room
        (ih.expect read low (.done _)))
  | _ =>
      simp only [Plan.primary, Deeper.primary, kind]
      exact ih.step h low (.done _)

/-- The plan of a chain ends with what the parser reads, since the bound of the parser is not
felt. -/
theorem chain_ends {rank : Rank} {left : Node} (ih : Below most (.chain rank left) s)
    (h : Reached most levels s s) :
    Ends most (.chain rank left) s (plan (.chain rank left) s)
      (answer most levels (.chain rank left) s) := by
  simp only [plan, answer]
  refine ih.operator h (by simp only [height]; decide) fun node u reached shorter some => ?_
  refine ih.call (.inl shorter) reached.ready reached.room ?_
  rw [answer, Rung.chain_congr rank.rung_ends (phrase_movesAt levels _) (maxOperators + 1)
    maxOperators node u reached.standing reached.room (by omega) (by omega)]
  exact .done _

/-- The plan of every rank of the ladder ends with what its parser reads. -/
theorem phrase_ends {rank : Rank} (ih : Below most (.phrase rank) s) (h : Reached most levels s s) :
    Ends most (.phrase rank) s (plan (.phrase rank) s) ((deeper levels).phrase rank s) := by
  cases rank with
  | or =>
      cases levels with
      | zero =>
          simp only [plan, Plan.phrase]
          exact ih.refuse h (by decide)
      | succ levels =>
          have room := h.room
          have nested : (deeper (levels + 1)).phrase .or s = (deeper levels).ladder.nested s := rfl
          rw [nested, Parser.nested_eq]
          simp only [plan, Plan.phrase, Plan.enter]
          rw [if_pos (by omega)]
          exact ih.operands .or h.enter (descends_of_le (Nat.le_refl _) (by decide)) (by decide)
            (.done _)
  | and =>
      exact ih.many .and h (descends_of_le (Nat.le_refl _) (by decide)) (by decide)
  | not =>
      simp only [plan, Plan.phrase, Deeper.phrase, Deeper.negated]
      split
      · rename_i kind
        exact ih.operand Deeper.negation h (by rw [kind]; decide) (by decide) rfl
          fun k u => .done _
      · exact ih.call (descends_of_le (Nat.le_refl _) (by decide)) h.ready h.room (.done _)
  | comparison =>
      have read := h.onward (phrase_movesAt levels .term s h.room).onward
      have once : (deeper levels).phrase .comparison s =
          Rank.comparison.rung.once ((deeper levels).phrase .term) s := rfl
      rw [once, Rung.once_eq]
      exact ih.call (descends_of_le (Nat.le_refl _) (by decide)) h.ready h.room
        (ih.operator read (by decide) fun node u _ _ _ => .done _)
  | term =>
      exact ih.many .term h (descends_of_le (Nat.le_refl _) (by decide)) (by decide)
  | factor =>
      exact ih.many .factor h (descends_of_le (Nat.le_refl _) (by decide)) (by decide)
  | unary =>
      simp only [plan, Plan.phrase, Deeper.phrase, Deeper.signed]
      split
      · rename_i kind
        exact ih.operand Deeper.negative h (by rw [kind]; decide) (by decide) rfl
          fun k u => .done _
      · exact ih.call (descends_of_le (Nat.le_refl _) (by decide)) h.ready h.room (.done _)
  | primary => exact primary_ends ih h

/-- The plan of every kind of statement ends with what its parser reads, with the level of the
statement closed.  There is one case for each kind of its first token. -/
theorem byKind_ends (ih : Below most .statement s) (h : Reached most levels s t) :
    Ends most .statement s (Plan.byKind t)
      (let read := statementByKind most levels (WhenLoop.statement most levels) t;
        (read.1, { read.2 with depth := read.2.depth - 1 })) := by
  have low : 0 < statement.height := by decide
  have stepped := h.onward t.advance_onward
  -- a statement that starts with a word of its own goes on where less is left to read
  have shorter : ∀ {u : State}, t.advance.Onward u → t.current.kind ≠ .endOfInput →
      u.upcoming.length < s.upcoming.length := fun onward inside =>
    Nat.lt_of_le_of_lt onward.length_le (h.advance_lt inside)
  have inner := statement_works most levels
  cases kind : t.current.kind with
  | «when» =>
      have inside : t.current.kind ≠ .endOfInput := by rw [kind]; decide
      have guarded := (guardOf_startsAt .when t h.room).onward
      have first := stepped.onward guarded
      have branch := inner _ first.room
      have read := first.onward branch.onward
      simp only [Plan.byKind, statementByKind, kind]
      refine ih.guardOf h (by decide) (ih.statement first (.inl (shorter guarded inside))
        (settles_ite (fun other => ?_) fun other => ?_))
      · have again := read.onward (State.advance_onward _)
        simp only [conditional, if_pos other]
        refine ih.step read low (ih.statement again (.inl (shorter ?_ inside)) (.done _))
        exact (guarded.trans branch.onward).trans (State.advance_onward _)
      · simp only [conditional, if_neg other]
        exact .done _
  | loop =>
      have inside : t.current.kind ≠ .endOfInput := by rw [kind]; decide
      have guarded := (guardOf_startsAt .loop t h.room).onward
      have first := stepped.onward guarded
      simp only [Plan.byKind, statementByKind, kind]
      exact ih.guardOf h (by decide) (ih.statement first (.inl (shorter guarded inside)) (.done _))
  | out =>
      have read := stepped.onward (expression_works stepped.room (.refl _)).onward
      simp only [Plan.byKind, statementByKind, kind]
      exact ih.step h low (ih.call (descends_of_le stepped.left (by decide)) stepped.ready
        stepped.room (ih.expect read low (.done _)))
  | openBrace =>
      have inside : t.current.kind ≠ .endOfInput := by rw [kind]; decide
      have list : Works false t.advance
          (statementList (listEnd true) (WhenLoop.statement most levels) most t.advance).2 :=
        statementList_works inner most _ stepped.room
      have read := stepped.onward list.onward
      simp only [Plan.byKind, statementByKind, kind]
      exact ih.step h low (ih.call (.inl (h.advance_lt inside)) stepped.ready
        stepped.room (ih.expect read low (.done _)))
  | name =>
      have assigned := stepped.onward (expect_moves _ .assign .expectedAssign).onward
      have read := assigned.onward (expression_works assigned.room (.refl _)).onward
      simp only [Plan.byKind, statementByKind, kind]
      exact ih.step h low (ih.expect stepped low (ih.call (descends_of_le assigned.left (by decide))
        assigned.ready assigned.room (ih.expect read low (.done _))))
  | _ =>
      simp only [Plan.byKind, statementByKind, kind]
      exact ih.step h low (.done _)

/-- The plan of a statement ends with what the parser reads, or gives up if no level is left. -/
theorem statement_ends (ih : Below most .statement s) (h : Reached most levels s s) :
    Ends most .statement s (plan .statement s) (WhenLoop.statement most levels s) := by
  cases levels with
  | zero => exact ih.refuse h (by decide)
  | succ levels =>
      have room := h.room
      simp only [plan, Plan.enter]
      rw [if_pos (by omega)]
      exact byKind_ends ih h.enter

/-- The plan of a statement with its recovery ends with what the parser reads. -/
theorem declaration_ends (ih : Below most .declaration s) (h : Reached most levels s s) :
    Ends most .declaration s (plan .declaration s)
      (recovering (WhenLoop.statement most levels) s) := by
  have read := h.onward (statement_works most levels s h.room).onward
  refine ih.statement h (descends_of_le (Nat.le_refl _) (by decide))
    (settles_ite (fun panic => ?_) fun calm => ?_)
  · have ready : Ready most (.seek .resume)
        { (WhenLoop.statement most levels s).2 with panicking := false } :=
      ⟨read.standing.finish, read.standing.ends, read.standing.head, .inl (Nat.zero_le _)⟩
    rw [recovering_eq_seek, if_pos panic]
    exact ih.call (descends_of_le read.left (by decide)) ready read.room (.done _)
  · rw [recovering_eq_seek, if_neg calm]
    exact .done _

/-- The plan of a list ends with what the parser reads, since every statement takes something away
from what is left. -/
theorem statements_ends {inBlock : Bool} {found : List Node}
    (ih : Below most (.statements inBlock found) s) (h : Reached most levels s s) :
    Ends most (.statements inBlock found) s (plan (.statements inBlock found) s)
      (answer most levels (.statements inBlock found) s) := by
  simp only [plan]
  refine settles_ite (fun here => ?_) fun goesOn => ?_
  · simp only [answer, statementList_of_stop here, List.append_nil]
    exact .done _
  · have inside : s.current.kind ≠ .endOfInput := fun last =>
      goesOn (by rw [State.atEnd, decide_eq_true last]; rfl)
    have shorter := recovering_shortens most h.standing h.room inside
    have read := h.onward (recovering_worksAt (statement_works most levels) s h.room).onward
    refine ih.call (descends_of_le (Nat.le_refl _) (by simp only [height]; decide)) h.ready h.room
      (ih.call (.inl shorter) read.ready read.room ?_)
    -- behind its first statement the list is as long as it may be without it
    obtain ⟨less, rfl⟩ : ∃ less, most = less + 1 := ⟨most - 1, by have := h.most; omega⟩
    have enough := h.most
    simp only [answer]
    rw [statementList_congr (less + 1) less _ read.standing read.room (by omega) (by omega)]
    rw [statementList, if_neg goesOn]
    simp only [List.append_assoc, List.singleton_append]
    exact .done _

/-- Every routine that may be called ends with its answer, and all the calls it makes descend.  The
induction is along the descent. -/
theorem settles (most : Nat) (r : Routine) (s : State) (levels : Nat) (ready : r.Ready most s)
    (room : s.depth + levels = maxNesting) : Ends most r s (plan r s) (r.answer most levels s) := by
  have ih : Below most r s := fun r' t levels' descends ready' room' =>
    (settles most r' t levels' ready' room').yields
  have here : s.Standing ∧ s.upcoming.length ≤ most → Reached most levels s s :=
    fun ⟨standing, le⟩ => ⟨standing, Nat.le_refl _, le, room⟩
  cases r with
  | consume => exact consume_ends ih ready room
  | seek goal => exact seek_ends ih ready room
  | program =>
      have begun := (skip_onward (fun _ _ => true) s (List.suffix_refl _))
      exact ih.call (descends_of_le (Nat.le_refl _) (by decide)) ready.1.uncounted room
        (ih.call (descends_of_le begun.length_le (by decide)) ready (begun.depth ▸ room) (.done _))
  | statements inBlock found => exact statements_ends ih (here ready)
  | declaration => exact declaration_ends ih (here ready)
  | statement => exact statement_ends ih (here ready)
  | expression =>
      have whole := (here ready).recount (Nat.zero_le maxOperators)
      exact ih.call (descends_of_le whole.left (by decide)) whole.ready whole.room (.done _)
  | condition =>
      have whole := (here ready).recount (Nat.zero_le maxOperators)
      exact ih.call (descends_of_le whole.left (by decide)) whole.ready whole.room (.done _)
  | phrase rank => exact phrase_ends ih (here ready)
  | chain rank left => exact chain_ends ih (here ready)
termination_by (s.upcoming.length, r.height)
decreasing_by
  exact Prod.lex_def.mpr descends

end Routine

/-! ## Whole sources -/

theorem State.ofScan_eq_skip (scan : Scan) :
    ofScan scan = skip (fun _ _ => true) (before scan) scan.items :=
  (skip_with_upcoming _ (before scan) [] _)

/-- A program is read to its end. -/
theorem program_upcoming {s : State} (standing : s.Standing) (outer : s.depth = 0) :
    (program s).2.upcoming = [] := by
  have room : s.depth + maxNesting = maxNesting := by rw [outer, Nat.zero_add]
  have last : ((program s).2.atEnd || false) = true :=
    statementList_ends _ s standing room (Nat.le_refl _)
  rw [Bool.or_false] at last
  exact ((program_works outer).onward.standing standing).upcoming_of_end (of_decide_eq_true last)

/-- Every call that is made while a source is read is made in a state in which the routine may be
called. -/
theorem Called.ready {source : String} {r : Routine} {s : State} (h : Called source r s) :
    r.Ready (ofScan (scan source)).upcoming.length s ∧ s.depth ≤ maxNesting := by
  induction h with
  | first =>
      refine ⟨?_, Nat.zero_le _⟩
      have same := ofScan_eq_skip (scan source)
      exact ⟨same ▸ ofScan_standing (scan_ended source), Nat.le_of_eq (by rw [same]; rfl)⟩
  | next _ makes ih =>
      exact ((Routine.settles _ _ _ _ ih.1 (Nat.add_sub_cancel' ih.2)).makes makes).2

/-- Reading ends on every source, however malformed.  Without any bound it yields exactly one
tree, the one that is parsed, with the reports that are made, and it ends at the end token with
nothing left to read.  Every call that is made on the way has an answer, and from it to any call
that it makes less is left to read, or as much and the routine is further down.  The scan behind
it shortens the text with every step until the end token comes. -/
theorem parse_terminates (source : String) :
    (∃ last : State,
      (∀ result, (plan .program (.before (scan source))).Yields result ↔
        result = ((parse source).tree, last)) ∧
      last.reports.reverse = (parse source).reports ∧ last.errors = (parse source).errors ∧
      last.upcoming = [] ∧ last.current = .endAt (.behind source.toList)) ∧
    (∀ r s, Called source r s →
      (∃ result, (plan r s).Yields result) ∧
      ∀ r' t, (plan r s).Makes r' t → r.Descends s r' t) ∧
    ∀ cursor : Cursor, (∃ p, cursor.next = (.token (.endAt p), ⟨[], p⟩)) ∨
      cursor.next.2.rest.length < cursor.rest.length := by
  refine ⟨?_, ?_, Cursor.next_shortens⟩
  · have standing := ofScan_standing (scan_ended source)
    have outer := ofScan_depth (scan source)
    have called : Called source .program (.before (scan source)) := .first
    have settled := Routine.settles _ _ _ maxNesting called.ready.1 rfl
    have read : Routine.answer (ofScan (scan source)).upcoming.length maxNesting .program
        (.before (scan source)) = ((parse source).tree, (program (ofScan (scan source))).2) := by
      simp only [Routine.answer]
      rw [show (before (scan source)).upcoming = (scan source).items from rfl, ← ofScan_eq_skip]
      rfl
    rw [read] at settled
    have nothing := program_upcoming standing outer
    refine ⟨(program (ofScan (scan source))).2, fun result => ?_, rfl, rfl, nothing, ?_⟩
    · refine ⟨fun yields => yields.unique settled.yields, ?_⟩
      rintro rfl
      exact settled.yields
    · rw [State.current, nothing, (program_works outer).onward.finish, ofScan_finish, scan_finish]
  · intro r s called
    obtain ⟨ready, le⟩ := called.ready
    have settled := Routine.settles _ r s _ ready (Nat.add_sub_cancel' le)
    exact ⟨⟨_, settled.yields⟩, fun r' t makes => (settled.makes makes).1⟩

end WhenLoop
