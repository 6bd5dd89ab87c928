import Mathlib.Data.List.Basic
import WhenLoop.Proofs.Containment
import WhenLoop.Proofs.Courses

/-!
# Every failure is counted once

A failure is reported where a statement is left behind its boundary, and nowhere inside.  A
statement that is executed without its boundary hands its failure to the caller, who reports it
or not.  The one report besides these is that of a last flush that is refused.

So the reports of a course are, in order, the failures of the statements that it left and of the
programs that it ended, one for each (`Machine.ledger_after`).  The count of failures is their
number at every moment of the course, and it is the number of the statements that were abandoned
together with the flushes that were refused (`Machine.errors_accounted`).
-/

namespace WhenLoop

variable {σ : Type}

/-! ## What an action reports -/

/-- The failure of a result. -/
def failureOf? : Except Failure Unit → Option Failure
  | .ok _ => none
  | .error failure => some failure

namespace Action

/-- The failure that an action reports. -/
def failure? : Action → Option Failure
  | leave _ result | finish result => failureOf? result
  | _ => none

/-- The kind of the statement that an action abandons. -/
def abandoned? : Action → Option NodeKind
  | leave statement (.error _) => some statement.kind
  | _ => none

/-- Whether an action ends a program whose last flush is refused. -/
def endsRefused : Action → Bool
  | finish (.error _) => true
  | _ => false

/-- A failure is settled at a statement's boundary or in the last flush, and never in both. -/
theorem length_failure? (action : Action) :
    action.failure?.toList.length
      = action.abandoned?.toList.length + if action.endsRefused then 1 else 0 := by
  cases action with
  | leave statement result => cases result <;> rfl
  | finish result => cases result <;> rfl
  | _ => rfl

/-- What is reported is a statement that is abandoned or a flush that is refused. -/
theorem length_failures (actions : List Action) :
    (actions.filterMap failure?).length
      = (actions.filterMap abandoned?).length + actions.countP endsRefused := by
  induction actions with
  | nil => rfl
  | cons action actions ih =>
      have here := action.length_failure?
      simp only [List.filterMap_eq_flatMap_toList, List.flatMap_cons, List.length_append,
        List.countP_cons] at ih ⊢
      omega

end Action

/-! ## The ledger of a machine -/

/-- What failures leave on a machine: their count, the lines that report them, and the kinds of
the abandoned statements that are in the log, if the threshold keeps them. -/
structure Ledger where
  threshold : Option Level
  errors : Nat
  reports : List String
  abandonments : List NodeKind

/-- The ledger behind some actions. -/
def Ledger.add (ledger : Ledger) (actions : List Action) : Ledger :=
  { ledger with
    errors := ledger.errors + (actions.filterMap Action.failure?).length
    reports := ledger.reports ++ (actions.filterMap Action.failure?).map Failure.report
    abandonments := ledger.abandonments ++
      if Level.debug.passes ledger.threshold then actions.filterMap Action.abandoned? else [] }

theorem Ledger.add_cons (ledger : Ledger) (action : Action) (actions : List Action) :
    ledger.add (action :: actions) = (ledger.add [action]).add actions := by
  simp only [add, List.filterMap_eq_flatMap_toList, List.flatMap_cons, List.flatMap_nil,
    List.length_append, List.map_append, List.append_assoc, List.append_nil, Nat.add_assoc]
  split <;> simp

/-- The kind of the statement whose abandonment a notice logs. -/
def Notice.abandoned? : Notice → Option NodeKind
  | .log (.abandoned kind) => some kind
  | _ => none

namespace Machine

/-- The ledger of a machine. -/
def ledger (m : Machine σ) : Ledger where
  threshold := m.threshold
  errors := m.errors
  reports := m.reports
  abandonments := m.journal.toList.filterMap Notice.abandoned?

theorem ledger_fail (m : Machine σ) (failure : Failure) :
    (m.fail failure).ledger = { m.ledger with
      errors := m.errors + 1
      reports := m.reports ++ [failure.report] } := by
  simp [ledger, fail, reports, Notice.abandoned?]

theorem ledger_log (m : Machine σ) (event : LogEvent)
    (other : (Notice.log event).abandoned? = none) : (m.log event).ledger = m.ledger := by
  rw [log]
  split
  · simp [ledger, reports, other]
  · rfl

/-- To log that a statement is abandoned is to enter it in the ledger. -/
theorem ledger_log_abandoned (m : Machine σ) (kind : NodeKind) :
    (m.log (.abandoned kind)).ledger = { m.ledger with
      abandonments := m.ledger.abandonments ++
        if Level.debug.passes m.threshold then [kind] else [] } := by
  rw [log, LogEvent.level]
  split
  · simp [ledger, reports, Notice.abandoned?]
  · simp

section Actions

variable [Outlet σ]

/-- An action adds to the ledger what it reports and abandons. -/
theorem ledger_on (m : Machine σ) (action : Action) :
    (action.on m).ledger = m.ledger.add [action] := by
  have quiet (reportsNone : action.failure? = none) (abandonsNone : action.abandoned? = none) :
      m.ledger = m.ledger.add [action] := by
    simp [Ledger.add, reportsNone, abandonsNone]
  cases action with
  | bring store => exact quiet rfl rfl
  | evaluate expression => exact quiet rfl rfl
  | test condition => exact quiet rfl rfl
  | assign target value => exact quiet rfl rfl
  | print value =>
      rw [← quiet rfl rfl, Action.on, print_eq]
      rfl
  | start => exact (ledger_log m .executing rfl).trans (quiet rfl rfl)
  | enter statement => exact (ledger_log m (.entering statement.kind) rfl).trans (quiet rfl rfl)
  | leave statement result =>
      cases result with
      | ok done => exact quiet rfl rfl
      | error failure =>
          simp only [Action.on, settle, ledger_fail, ledger_log_abandoned, log_errors, reports_log]
          rfl
  | finish result =>
      cases result with
      | ok done => exact (ledger_log m.flush.2 (.finished _ _) rfl).trans (quiet rfl rfl)
      | error failure =>
          refine (ledger_log (m.flush.2.fail failure) (.finished _ _) rfl).trans ?_
          rw [ledger_fail]
          simp [Ledger.add, List.filterMap_eq_flatMap_toList, Action.failure?, failureOf?,
            Action.abandoned?, flush, ledger, reports]

/-- The ledger behind some actions of a course. -/
theorem ledger_after (m : Machine σ) (actions : List Action) :
    (m.after actions).ledger = m.ledger.add actions := by
  induction actions generalizing m with
  | nil => simp [after, Ledger.add]
  | cons action actions ih => rw [after_cons, ih, ledger_on, ← Ledger.add_cons]

/-! ## Boundaries -/

/-- A statement without its boundary reports the failures of the statements that it leaves, which
stand inside it, and not its own. -/
theorem execute_reports {rounds : Nat} {node : Node} {m m' : Machine σ}
    {result : Except Failure Unit} (ends : execute rounds (some node) m = some (result, m')) :
    ∃ inside, node.Does (m.after [.enter node]) inside result ∧
      (∀ statement outcome, .leave statement outcome ∈ inside → statement.OccursBelow node) ∧
      m'.reports = m.reports ++ (inside.filterMap Action.failure?).map Failure.report := by
  obtain ⟨inside, does, rfl⟩ := node.perform_does rounds ends
  refine ⟨inside, does, fun statement outcome mem => does.concerns _ mem, ?_⟩
  exact congrArg Ledger.reports (ledger_after m (.enter node :: inside))

/-- The boundary of a statement adds the report of the statement's own failure, if it failed, and
nothing else. -/
theorem contained_reports {rounds : Nat} {node : Node} {m m' : Machine σ}
    {result : Except Failure Unit} (ends : execute rounds (some node) m = some (result, m')) :
    ∃ m'', contained rounds (some node) m = some m'' ∧
      m''.reports = m'.reports ++ (failureOf? result).toList.map Failure.report := by
  refine ⟨settle node.kind (result, m'), Option.map_eq_some_iff.mpr ⟨_, ends, rfl⟩, ?_⟩
  cases result with
  | ok done => exact (List.append_nil _).symm
  | error failure =>
      rw [settle, reports_fail, reports_log]
      rfl

end Actions

/-! ## Calls one after the other -/

/-- The machine has counted what was reported in some actions, which is the failures of the
statements that were left and of the programs that were ended, one for each.  There are as many
of them as statements that were abandoned and last flushes that were refused.  The abandoned
statements are in the log if its threshold keeps them. -/
structure Accounted (done : List Action) (m : Machine σ) : Prop where
  errors : m.errors = m.reports.length
  reports : m.reports = (done.filterMap Action.failure?).map Failure.report
  total : m.reports.length
    = (done.filterMap Action.abandoned?).length + done.countP Action.endsRefused
  logged : Level.debug.passes m.threshold = true →
    m.ledger.abandonments = done.filterMap Action.abandoned?

variable [Outlet σ]

/-- The account is read off the ledger, and the actions tell every entry of that. -/
theorem accounted_after (sink : σ) (threshold : Option Level) (done : List Action) :
    ((new sink threshold).after done).Accounted done := by
  have ledger := ledger_after (new sink threshold) done
  have errors := (congrArg Ledger.errors ledger).trans (Nat.zero_add _)
  have reports : ((new sink threshold).after done).reports
      = (done.filterMap Action.failure?).map Failure.report := congrArg Ledger.reports ledger
  have same : ((new sink threshold).after done).threshold = threshold :=
    congrArg Ledger.threshold ledger
  refine ⟨?_, reports, ?_, fun kept => ?_⟩
  · rw [reports, List.length_map]
    exact errors
  · rw [reports, List.length_map]
    exact Action.length_failures done
  · rw [same] at kept
    exact (congrArg Ledger.abandonments ledger).trans (if_pos kept)

/-- However many calls a new machine answers, on whatever stores, the count of its failures never
goes down, and at every moment on the way it is accounted for: it is the number of the reports so
far, and of the statements that were abandoned and the last flushes that were refused.

A statement that is executed without its boundary adds the reports of statements inside it only.
Behind its boundary one report is added to these if it fails, and none if it does not. -/
theorem errors_accounted {sink : σ} {threshold : Option Level} {calls : List Call}
    {m' : Machine σ} (served : (new sink threshold).Serves calls m') :
    (∃ actions, (new sink threshold).Course calls actions ∧
      (new sink threshold).after actions = m' ∧
      (∀ j k, j ≤ k → ((new sink threshold).after (actions.take j)).errors
        ≤ ((new sink threshold).after (actions.take k)).errors) ∧
      ∀ k, ((new sink threshold).after (actions.take k)).Accounted (actions.take k)) ∧
    ∀ {rounds : Nat} {node : Node} {n n' : Machine σ} {result : Except Failure Unit},
      execute rounds (some node) n = some (result, n') →
      (∃ inside, node.Does (n.after [.enter node]) inside result ∧
        (∀ statement outcome, .leave statement outcome ∈ inside → statement.OccursBelow node) ∧
        n'.reports = n.reports ++ (inside.filterMap Action.failure?).map Failure.report) ∧
      ∃ n'', contained rounds (some node) n = some n'' ∧
        n''.reports = n'.reports ++ (failureOf? result).toList.map Failure.report := by
  refine ⟨?_, fun ends => ⟨execute_reports ends, contained_reports ends⟩⟩
  obtain ⟨actions, course, rfl⟩ := served.course
  have accounted (k : Nat) := accounted_after sink threshold (actions.take k)
  refine ⟨actions, course, rfl, fun j k le => ?_, accounted⟩
  have earlier : (actions.take j).filterMap Action.failure?
      <+: (actions.take k).filterMap Action.failure? :=
    (List.take_prefix_take_left le).filterMap _
  rw [(accounted j).errors, (accounted k).errors, (accounted j).reports, (accounted k).reports,
    List.length_map, List.length_map]
  exact earlier.length_le

/-- A call without a boundary that fails, and a program with a statement that fails, on a sink
that allows no flush. -/
theorem errors_accounted_calls :
    let fails : Node := .assign "x" (.arith .mod (.num 1) (.num 0))
    let calls : List Call := [⟨.execute, some fails, .empty⟩, ⟨.run, some (.seq [fails]), .empty⟩]
    ∃ m', (new { Sink.unlimited with flushes := some 0 } (some .debug)).Serves calls m' ∧
      m'.ledger.abandonments = [.assign] ∧ m'.errors = 2 ∧ m'.reports.length = 2 := by
  intro fails calls
  obtain ⟨m', served, abandonments, errors⟩ :
      ∃ m', (new { Sink.unlimited with flushes := some 0 } (some .debug)).Serves calls m' ∧
        m'.ledger.abandonments = [.assign] ∧ m'.errors = 2 :=
    ⟨_, @Serves.next _ _ _ _ _ _ _ 1 _ rfl (@Serves.next _ _ _ _ _ _ _ 1 _ rfl .done), rfl, rfl⟩
  obtain ⟨⟨actions, -, last, -, accounted⟩, -⟩ := errors_accounted served
  have whole := accounted actions.length
  rw [List.take_length, last] at whole
  exact ⟨m', served, abandonments, errors, whole.errors ▸ errors⟩

end Machine

end WhenLoop
