import WhenLoop.Proofs.Moments

/-!
# Passing a limit is final

When a limit is passed the parse gives up.  It reports the limit, unless it is in panic already,
and steps over the rest of the source.  Then up to 128 constructs that were begun are still to be
finished, and each of them goes on with what it would have done.  All of this happens at the end
of the source and in a panic that no one ends, so nothing comes of it.

`State.Alters` lists what can happen to a state between one moment of a parse and the next,
and `Plan.Follows` says that this is all that happens, at every moment of a plan, unless a limit is
passed there (`Plan.AtLimit`).  It is shown once for every routine (`plan_follows`).  That a
parse which gave up stays silent is then an induction over its steps (`momentAt_gaveUp`).
-/

namespace WhenLoop

open Grammar (Rank)
open State

namespace State

/-! ## Between two moments -/

/-- What can happen to a state between one moment of a parse and the next, unless a limit is
passed: reports, a step over a token, levels and operators that are counted, and the end of a
panic. -/
inductive Alters (s : State) : State → Prop where
  | refl : s.Alters s
  | report {t : State} (r : Report) : s.Alters t → s.Alters (t.report r)
  | nest {t : State} (depth : Nat) : s.Alters t → s.Alters { t with depth := depth }
  | count {t : State} (operators : Nat) : s.Alters t → s.Alters { t with operators := operators }
  | move {t : State} (token : Token) {items : List Item} : items <:+ t.upcoming → s.Alters t →
      s.Alters { t with previous := token, upcoming := items }
  | calm {t : State} : t.aborted = false → s.Alters t → s.Alters { t with panicking := false }

/-- A state that comes after another one in which the parse gave up.  Nothing was reported since,
and no more is left to read. -/
structure GaveUp (s t : State) : Prop where
  aborted : t.aborted = true
  panicking : t.panicking = true
  reports : t.reports = s.reports
  errors : t.errors = s.errors
  upcoming : t.upcoming <:+ s.upcoming

variable {s t u : State}

theorem GaveUp.self (h : s.GaveUp t) : t.GaveUp t :=
  ⟨h.aborted, h.panicking, rfl, rfl, List.suffix_rfl⟩

/-- Only a limit that is passed makes the parse give up. -/
theorem Alters.aborted_eq (h : s.Alters t) : t.aborted = s.aborted := by
  induction h with
  | refl => rfl
  | report r _ ih => rw [report_aborted, ih]
  | nest _ _ ih => exact ih
  | count _ _ ih => exact ih
  | move _ _ _ ih => exact ih
  | calm _ _ ih => exact ih

theorem report_of_panicking (panic : s.panicking = true) (r : Report) : s.report r = s := by
  rw [report, if_pos panic]

/-- Nothing that happens ends the panic of a parse that gave up, and in panic nothing is
reported. -/
theorem GaveUp.alters (h : s.GaveUp t) (alters : t.Alters u) : s.GaveUp u := by
  induction alters with
  | refl => exact h
  | report r _ ih =>
      rw [report_of_panicking ih.panicking]
      exact ih
  | nest _ _ ih => exact ⟨ih.aborted, ih.panicking, ih.reports, ih.errors, ih.upcoming⟩
  | count _ _ ih => exact ⟨ih.aborted, ih.panicking, ih.reports, ih.errors, ih.upcoming⟩
  | move _ less _ ih =>
      exact ⟨ih.aborted, ih.panicking, ih.reports, ih.errors, less.trans ih.upcoming⟩
  | calm goesOn _ ih => exact absurd ih.aborted (by simp [goesOn])

/-- A parse in panic has counted a report. -/
def Counted (s : State) : Prop := s.panicking = true → 1 ≤ s.errors

/-- The report that starts a panic is counted. -/
theorem Counted.report (h : s.Counted) (r : Report) : (s.report r).Counted := by
  rw [State.report]
  split
  · exact h
  · exact fun _ => Nat.succ_pos _

theorem Alters.counted (h : s.Alters t) (counted : s.Counted) : t.Counted := by
  induction h with
  | refl => exact counted
  | report r _ ih => exact ih.report r
  | nest _ _ ih => exact ih
  | count _ _ ih => exact ih
  | move _ _ _ ih => exact ih
  | calm _ _ _ => exact fun panic => nomatch panic

theorem Alters.advance (h : s.Alters t) :
    s.Alters { t with previous := t.current, upcoming := t.upcoming.tail } :=
  h.move t.current (List.tail_suffix _)

theorem Alters.reportCondition (h : s.Alters t) (problem : Problem) (node : Node) :
    s.Alters (t.reportCondition problem node) := by
  rw [State.reportCondition]
  split
  · exact h.report _
  · exact h

theorem Alters.checkOperand (h : s.Alters t) (rung : Rung) (node : Node) :
    s.Alters (rung.checkOperand t node) := by
  rw [Rung.checkOperand]
  split
  · exact h.reportCondition _ _
  · exact h

end State

namespace Plan

/-! ## What follows a moment -/

/-- In this state a level is to be opened and none is left, or an operator is to be counted and
there may be no more. -/
inductive AtLimit (s : State) : Problem → Plan → Prop where
  | nesting {operators : Nat} {node : Node} {next : State → Plan} : maxNesting ≤ s.depth →
      AtLimit s .nestingTooDeep (.enter { s with operators := operators } node next)
  | operators {node : Node} {next : State → Plan} : maxOperators ≤ s.operators →
      AtLimit s .tooManyOperators (.count s node next)

/-- At a limit the parse gives up. -/
theorem AtLimit.eq_giveUp {s : State} {problem : Problem} {p : Plan} (h : AtLimit s problem p) :
    ∃ operators node, p = .giveUp { s with operators := operators } problem node := by
  cases h with
  | nesting deep => exact ⟨_, _, if_neg (Nat.not_lt.mpr deep)⟩
  | operators many => exact ⟨_, _, if_neg (Nat.not_le.mpr (Nat.lt_succ_of_le many))⟩

/-- A plan that may be gone on with in this state: either a limit is passed there, or the state is
altered and so it is from every answer on. -/
inductive Follows : State → Plan → Prop where
  | done {s : State} {answer : Node × State} : s.Alters answer.2 → Follows s (.done answer)
  | call {s t : State} {routine : Routine} {next : Node × State → Plan} : s.Alters t →
      (∀ answer, Follows answer.2 (next answer)) → Follows s (.call routine t next)
  | limit {s : State} {problem : Problem} {p : Plan} : AtLimit s problem p → Follows s p

/-- What may be gone on with in every state that was altered before. -/
def Resumes (next : State → Plan) : Prop := ∀ ⦃s t : State⦄, s.Alters t → Follows s (next t)

namespace Follows

variable {s t : State}

theorem advance {next : State → Plan} (h : s.Alters t) (hn : ∀ u, Follows u (next u)) :
    Follows s (advance t next) :=
  .call h.advance fun answer => hn answer.2

/-- The token is there and is stepped over, or it is reported missing. -/
theorem expect {kind : TokenKind} {problem : Problem} {next : State → Plan} (h : s.Alters t)
    (hn : Resumes next) : Follows s (expect t kind problem next) := by
  rw [Plan.expect]
  split
  · exact advance h fun u => hn .refl
  · exact hn (h.report _)

/-- A level is opened, or there is none left and the limit is passed here. -/
theorem enter {operators : Nat} {node : Node} {next : State → Plan} (hn : Resumes next) :
    Follows s (enter { s with operators := operators } node next) := by
  by_cases room : s.depth < maxNesting
  · rw [Plan.enter, if_pos room]
    exact hn ((Alters.refl.count operators).nest _)
  · exact .limit (.nesting (Nat.not_lt.mp room))

/-- An operator is counted, or it is one too many and the limit is passed here. -/
theorem count {node : Node} {next : State → Plan}
    (hn : Follows s (next { s with operators := s.operators + 1 })) :
    Follows s (count s node next) := by
  by_cases room : s.operators + 1 ≤ maxOperators
  · rw [Plan.count, if_pos room]
    exact hn
  · exact .limit (.operators (Nat.le_of_lt_succ (Nat.lt_of_not_le room)))

/-- An operator is counted before its operand is called for. -/
theorem operator {rank : Rank} {left : Node} {next : Node → State → Plan}
    (hn : ∀ node, Resumes (next node)) : Follows s (operator rank left s next) := by
  rw [Plan.operator]
  split
  · exact .done .refl
  · refine advance .refl fun u => count (.call ?_ fun answer => hn _ ?_)
    · exact (Alters.refl.count _).checkOperand _ _
    · exact Alters.refl.checkOperand _ _

theorem operands {rank : Rank} {next : Node → State → Plan} (h : s.Alters t)
    (hn : ∀ node, Resumes (next node)) : Follows s (operands rank t next) :=
  .call h fun _ => .call .refl fun answer => hn answer.1 .refl

end Follows

theorem resumes_done (node : Node) : Resumes fun s => .done (node, s) :=
  fun _ _ alters => .done alters

theorem resumes_leave (node : Node) : Resumes (leave node) :=
  fun _ _ alters => .done (alters.nest _)

/-! ## The plans of the routines -/

/-- One case for each kind of first token. -/
theorem primary_follows (s : State) : Follows s (primary s) := by
  rw [primary]
  split
  · split
    · exact .advance .refl fun u => .done .refl
    · exact .advance .refl fun u => .done (Alters.refl.report _)
  · exact .advance .refl fun u => .done .refl
  · refine .advance .refl fun u => .call .refl fun answer => .expect .refl ?_
    exact resumes_done answer.1
  · exact .advance .refl fun u => .done (Alters.refl.report _)

/-- One case for each rank: a level is opened, an operator is counted, or the next rank is
called. -/
theorem phrase_follows (s : State) (rank : Rank) : Follows s (phrase s rank) := by
  cases rank with
  | or => exact .enter fun _ _ alters => .operands alters resumes_leave
  | and => exact .operands .refl resumes_done
  | not =>
      rw [phrase]
      split
      · refine .advance .refl fun u => .count (.enter fun _ _ alters => ?_)
        exact .call alters fun answer => resumes_leave _ .refl
      · exact .call .refl fun answer => .done .refl
  | comparison => exact .call .refl fun answer => .operator resumes_done
  | term => exact .operands .refl resumes_done
  | factor => exact .operands .refl resumes_done
  | unary =>
      rw [phrase]
      split
      · refine .advance .refl fun u => .count (.enter fun _ _ alters => ?_)
        exact .call alters fun answer => .done ((Alters.refl.nest _).reportCondition _ _)
      · exact .call .refl fun answer => .done .refl
  | primary => exact primary_follows s

theorem guardOf_follows {kind : Guarded} {s t : State} {next : Node → State → Plan}
    (h : s.Alters t) (hn : ∀ node, Resumes (next node)) : Follows s (guardOf kind t next) := by
  refine .advance h fun u => .expect .refl fun _ _ alters => ?_
  exact .call alters fun answer => .expect .refl (hn answer.1)

/-- One case for each kind of statement. -/
theorem resumes_byKind : Resumes byKind := by
  intro s t h
  rw [byKind]
  split
  · refine guardOf_follows h fun test _ _ alters => .call alters fun answer => ?_
    dsimp only
    split
    · exact .advance .refl fun u => .call .refl fun answer => resumes_leave _ .refl
    · exact resumes_leave _ .refl
  · exact guardOf_follows h fun test _ _ alters => .call alters fun answer => resumes_leave _ .refl
  · refine .advance h fun u => .call .refl fun answer => .expect .refl ?_
    exact resumes_leave _
  · refine .advance h fun u => .call .refl fun answer => .expect .refl ?_
    exact resumes_leave _
  · refine .advance h fun u => .expect .refl fun _ _ alters => .call alters fun answer => ?_
    exact .expect .refl (resumes_leave _)
  · exact .advance h fun u => resumes_leave _ (Alters.refl.report _)

end Plan

open Plan

/-- Between two moments of a plan nothing happens to the state but what alters it, unless a limit
is passed. -/
theorem plan_follows (routine : Routine) (s : State) : Follows s (plan routine s) := by
  cases routine with
  | consume =>
      rw [plan]
      split
      · rename_i fault items same
        refine .call ?_ fun answer => .done .refl
        have reported : s.Alters (s.report (.lexical fault)) := Alters.refl.report _
        refine reported.move _ ?_
        rw [report_upcoming, same]
        exact List.suffix_cons ..
      · exact .done .refl
  | seek goal =>
      rw [plan]
      split
      · exact .done .refl
      · exact .advance .refl fun u => .call .refl fun answer => .done .refl
  | program => exact .call .refl fun _ => .call .refl fun answer => .done .refl
  | statements inBlock found =>
      rw [plan]
      split
      · exact .done .refl
      · exact .call .refl fun _ => .call .refl fun answer => .done .refl
  | declaration =>
      refine .call .refl fun answer => ?_
      dsimp only
      split
      · rename_i panic
        refine .call ?_ fun _ => .done .refl
        exact Alters.refl.calm (by simpa using (Bool.and_eq_true_iff.mp panic).2)
      · exact .done .refl
  | statement => exact .enter resumes_byKind
  | expression =>
      exact .call (Alters.refl.count 0) fun answer => .done (Alters.refl.reportCondition _ _)
  | condition => exact .call (Alters.refl.count 0) fun answer => .done .refl
  | phrase rank => exact phrase_follows s rank
  | chain rank left =>
      rw [plan]
      exact .operator fun node _ _ alters => .call alters fun answer => .done .refl

/-! ## Giving up -/

section AtLimit

variable {s t : State} {problem : Problem} {p : Plan}

/-- To go on is to alter the state or to pass a limit. -/
theorem Plan.Follows.alters_or_limit (h : Follows s p) :
    s.Alters p.state ∨ ∃ problem, AtLimit s problem p := by
  cases h with
  | done alters => exact .inl alters
  | call alters _ => exact .inl alters
  | limit limit => exact .inr ⟨_, limit⟩

/-- From every answer on, what waited for it may be gone on with. -/
theorem Plan.Follows.answered {routine : Routine} {next : Node × State → Plan}
    (h : Follows s (.call routine t next)) (answer : Node × State) :
    Follows answer.2 (next answer) := by
  cases h with
  | call _ goesOn => exact goesOn answer
  | limit limit =>
      obtain ⟨operators, node, same⟩ := limit.eq_giveUp
      cases same
      exact .done .refl

/-- Where a limit is passed the parse gives up, and reports the limit unless it is in panic. -/
theorem Plan.AtLimit.state_eq (h : AtLimit s problem p) : ∃ operators,
    p.state = { s.reportCurrent problem with operators := operators, aborted := true } := by
  obtain ⟨operators, node, rfl⟩ := h.eq_giveUp
  refine ⟨operators, ?_⟩
  rw [giveUp, state, reportCurrent, reportCurrent, State.report, State.report]
  split <;> rfl

/-- Where a limit is passed the parse gives up. -/
theorem Plan.AtLimit.gaveUp (h : AtLimit s problem p) : p.state.GaveUp p.state := by
  obtain ⟨operators, same⟩ := h.state_eq
  rw [same]
  exact ⟨rfl, report_panicking s _, rfl, rfl, List.suffix_rfl⟩

/-- Where a limit is passed there is a panic, with a report of its own or an earlier one. -/
theorem Plan.AtLimit.counted (h : AtLimit s problem p) (counted : s.Counted) : p.state.Counted := by
  obtain ⟨operators, same⟩ := h.state_eq
  rw [same]
  exact counted.report _

/-- A parse that gave up has nothing more to say at another limit. -/
theorem State.GaveUp.limit (h : t.GaveUp s) (limit : AtLimit s problem p) : t.GaveUp p.state := by
  obtain ⟨operators, same⟩ := limit.state_eq
  rw [same, reportCurrent, report_of_panicking h.panicking]
  exact ⟨rfl, h.panicking, h.reports, h.errors, h.upcoming⟩

end AtLimit

namespace Moment

/-- At this moment a limit is passed. -/
def Passes (p : Moment) (problem : Problem) : Prop := AtLimit p.state problem p.next.plan

/-- All that is still to be carried out may be gone on with. -/
structure Proper (p : Moment) : Prop where
  plan : ∃ s, Follows s p.plan
  waiting : ∀ next ∈ p.waiting, ∀ answer, Follows answer.2 (next answer)

/-- The step lemma: what is carried out next may be gone on with, and so may all that then waits. -/
theorem Proper.next {p : Moment} (h : p.Proper) : Follows p.state p.next.plan ∧ p.next.Proper := by
  obtain ⟨⟨s, here⟩, waiting⟩ := h
  match p, here, waiting with
  | ⟨.call routine t next, waiting⟩, here, later =>
      have follows := plan_follows routine t
      exact ⟨follows, ⟨t, follows⟩, List.forall_mem_cons.mpr ⟨here.answered, later⟩⟩
  | ⟨.done answer, []⟩, _, later => exact ⟨.done .refl, ⟨answer.2, .done .refl⟩, later⟩
  | ⟨.done answer, next :: waiting⟩, _, later =>
      have follows := later next List.mem_cons_self answer
      exact ⟨follows, ⟨_, follows⟩, fun other mem => later other (List.mem_cons_of_mem next mem)⟩

end Moment

section Source

variable {source : String} {m n : Nat} {problem : Problem}

/-- Hence every moment of every parse is proper. -/
theorem momentAt_proper (source : String) (n : Nat) : (momentAt source n).Proper := by
  induction n with
  | zero => exact ⟨⟨_, plan_follows .program (.before (scan source))⟩, List.forall_mem_nil _⟩
  | succ n ih => exact ih.next.2

/-- From one moment of a parse to the next the state is altered, or a limit is passed. -/
theorem momentAt_step (source : String) (n : Nat) :
    (momentAt source n).state.Alters (momentAt source (n + 1)).state ∨
      ∃ problem, (momentAt source n).Passes problem :=
  (momentAt_proper source n).next.1.alters_or_limit

/-- At no moment is there a panic without a report. -/
theorem momentAt_counted (source : String) (n : Nat) : (momentAt source n).state.Counted := by
  induction n with
  | zero => exact fun panic => nomatch panic
  | succ n ih =>
      rcases momentAt_step source n with alters | ⟨problem, passes⟩
      · exact alters.counted ih
      · exact passes.counted ih

/-- A parse that gave up stays so, and does not report any more. -/
theorem momentAt_gaveUp {s : State} (h : s.GaveUp (momentAt source n).state) (le : n ≤ m) :
    s.GaveUp (momentAt source m).state := by
  induction le with
  | refl => exact h
  | step _ ih =>
      rcases momentAt_step source _ with alters | ⟨problem, passes⟩
      · exact ih.alters alters
      · exact ih.limit passes

/-- Once a limit is passed, every later moment is one of a parse that gave up. -/
theorem gaveUp_of_passes (h : (momentAt source n).Passes problem) (later : n < m) :
    (momentAt source (n + 1)).state.GaveUp (momentAt source m).state :=
  momentAt_gaveUp (Plan.AtLimit.gaveUp h) later

/-- By induction on the moments.  Nothing else gives up, and nothing takes it back. -/
theorem aborted_iff (source : String) (n : Nat) :
    (momentAt source n).state.aborted = true ↔
      ∃ m problem, m < n ∧ (momentAt source m).Passes problem := by
  constructor
  · induction n with
    | zero => exact fun gaveUp => nomatch gaveUp
    | succ n ih =>
        intro gaveUp
        rcases momentAt_step source n with alters | ⟨problem, passes⟩
        · obtain ⟨m, problem, lt, passes⟩ := ih (alters.aborted_eq ▸ gaveUp)
          exact ⟨m, problem, Nat.lt_succ_of_lt lt, passes⟩
        · exact ⟨n, problem, Nat.lt_succ_self n, passes⟩
  · rintro ⟨m, problem, lt, passes⟩
    exact (gaveUp_of_passes passes lt).aborted

/-- A parse that gives up steps over the rest of the source, and from then on nothing is left to
read. -/
theorem rest_of_passes (h : (momentAt source n).Passes problem) :
    ∃ next waiting m,
      momentAt source (n + 1)
        = ⟨.call (.seek .finish) (momentAt source (n + 1)).state next, waiting⟩ ∧
      n + 1 < m ∧
      (∀ k, n + 1 < k → k < m → (next :: waiting) <:+ (momentAt source k).waiting) ∧
      ∀ k, m ≤ k → (momentAt source k).state.upcoming = [] := by
  obtain ⟨operators, node, same⟩ := Plan.AtLimit.eq_giveUp h
  let next : Node × State → Plan := fun answer => .done (node, answer.2)
  let waiting := (momentAt source (n + 1)).waiting
  have calls : (momentAt source (n + 1)).plan
      = .call (.seek .finish) (momentAt source (n + 1)).state next := by
    change (momentAt source n).next.plan = .call _ (momentAt source n).next.plan.state next
    rw [same]
    rfl
  have begun : momentAt source (n + 2)
      = ⟨plan (.seek .finish) (momentAt source (n + 1)).state, next :: waiting⟩ := by
    change (Moment.mk (momentAt source (n + 1)).plan waiting).next = _
    rw [calls]
    rfl
  obtain ⟨j, runs⟩ := (called_of_momentAt calls).yields.runs (next :: waiting)
  have reached : (momentAt source (n + 2 + j)).state.upcoming = [] := by
    rw [momentAt_add, begun, runs.reached]
    exact skip_never _ _
  have gaveUp := (gaveUp_of_passes h (show n < n + 2 + j by omega)).self
  refine ⟨next, waiting, n + 2 + j + 1, congrArg (Moment.mk · waiting) calls, by omega, ?_, ?_⟩
  · intro k after before
    obtain ⟨i, rfl⟩ := Nat.exists_eq_add_of_le (show n + 2 ≤ k from after)
    rw [momentAt_add, begun]
    exact runs.inside i (by omega)
  · intro k le
    have rest := (momentAt_gaveUp gaveUp (Nat.le_of_succ_le le)).upcoming
    rwa [reached, List.suffix_nil] at rest

end Source

/-- When a limit is passed this is reported, unless the parse is in panic already. -/
theorem report_of_passes {source : String} {n : Nat} {problem : Problem}
    (h : (momentAt source n).Passes problem) :
    let s := (momentAt source n).state
    let t := (momentAt source (n + 1)).state
    (s.panicking = true → t.reports = s.reports ∧ t.errors = s.errors) ∧
      (s.panicking = false →
        t.reports = .atToken s.current problem :: s.reports ∧ t.errors = s.errors + 1) := by
  obtain ⟨operators, same⟩ := Plan.AtLimit.state_eq h
  have behind : (momentAt source (n + 1)).state = _ := same
  refine ⟨fun panic => ?_, fun calm => ?_⟩
  · rw [behind, reportCurrent, report_of_panicking panic]
    exact ⟨rfl, rfl⟩
  · rw [behind, reportCurrent, State.report, if_neg (by simp [calm])]
    exact ⟨rfl, rfl⟩

/-- Passing a limit is final.  The moments of a parse come to its tree, and a parse has given up
exactly if a limit was passed before.  When one is passed this is reported, unless the parse is in
panic already, and no report is made after that.  The parse steps over the rest of the source
before it does anything else, and from then on nothing is left to read.  What was reported by then
is what the source is refused with. -/
theorem passing_limit_final (source : String) :
    (∃ n s, ∀ k, n ≤ k → momentAt source k = ⟨.done ((parse source).tree, s), []⟩) ∧
    (∀ n, (momentAt source n).state.aborted = true ↔
      ∃ m problem, m < n ∧ (momentAt source m).Passes problem) ∧
    ∀ n problem, (momentAt source n).Passes problem →
      let s := (momentAt source n).state
      let t := (momentAt source (n + 1)).state
      ((s.panicking = true → t.reports = s.reports ∧ t.errors = s.errors) ∧
        (s.panicking = false →
          t.reports = .atToken s.current problem :: s.reports ∧ t.errors = s.errors + 1)) ∧
      (∀ m, n < m → (momentAt source m).state.reports = t.reports ∧
        (momentAt source m).state.errors = t.errors) ∧
      (∃ next waiting m, momentAt source (n + 1) = ⟨.call (.seek .finish) t next, waiting⟩ ∧
        n + 1 < m ∧ (∀ k, n + 1 < k → k < m → (next :: waiting) <:+ (momentAt source k).waiting) ∧
        ∀ k, m ≤ k → (momentAt source k).state.upcoming = []) ∧
      (parse source).reports = t.reports.reverse ∧ (parse source).errors = t.errors ∧
      1 ≤ (parse source).errors := by
  obtain ⟨last, behind, ends, reports, errors⟩ := momentAt_end source
  refine ⟨⟨last, behind, ends⟩, aborted_iff source, fun n problem passes => ?_⟩
  have silent {m : Nat} (later : n < m) := gaveUp_of_passes passes later
  have final := silent (Nat.lt_of_lt_of_le (Nat.lt_succ_self n) (Nat.le_max_right last (n + 1)))
  rw [ends _ (Nat.le_max_left last (n + 1))] at final
  have counted := momentAt_counted source (n + 1) (silent (Nat.lt_succ_self n)).panicking
  refine ⟨report_of_passes passes, fun m later => ⟨(silent later).reports, (silent later).errors⟩,
    rest_of_passes passes, ?_, ?_, ?_⟩
  · rw [← reports]
    exact congrArg List.reverse final.reports
  · rw [← errors]
    exact final.errors
  · rw [← errors]
    exact Nat.le_trans counted (Nat.le_of_eq final.errors.symm)

/-- The last of 129 braces passes the limit on levels.  That there is no closing brace is then
not reported any more. -/
theorem passing_limit_final_braces :
    let source := String.ofList (.replicate 129 '\x7b')
    (momentAt source 645).state.aborted = true ∧
    ∃ n problem, n < 645 ∧ (momentAt source n).Passes problem ∧
      (∀ m, n < m → (momentAt source m).state.errors = (parse source).errors) ∧
      (parse source).errors = 1 := by
  intro source
  have gaveUp : (momentAt source 645).state.aborted = true := by
    rw [momentAt, scan, Cursor.ofSource, String.toList_ofList]
    decide +kernel
  obtain ⟨-, aborted, final⟩ := passing_limit_final source
  obtain ⟨n, problem, before, passes⟩ := (aborted 645).mp gaveUp
  obtain ⟨-, silent, -, -, errors, -⟩ := final n problem passes
  have once : (parse source).errors = 1 := by
    rw [errors, ← (silent 645 before).2, momentAt, scan, Cursor.ofSource, String.toList_ofList]
    decide +kernel
  exact ⟨gaveUp, n, problem, before, passes, fun m later => (silent m later).2.trans errors.symm,
    once⟩

end WhenLoop
