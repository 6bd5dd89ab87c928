import WhenLoop.Proofs.Simulation

/-!
# A failed statement might as well not be there

A statement that fails in an evaluation did nothing but evaluate: it printed nothing, and it
changed no value, though it may have bound names to zero (`Node.perform_failed`).  The one
exception is a loop whose condition fails in a later round, after the body ran.

So in a list of statements the failed one leaves a machine that differs from the one before it
by a report, a count and bindings to zero.  What follows in the list sees none of these, and the
difference is still there at the end and no other (`Machine.OneMore`).
-/

namespace WhenLoop

variable {σ : Type}

namespace Machine

/-- The lines of the failures that were reported, in order. -/
def reports (m : Machine σ) : List String :=
  m.journal.toList.filterMap fun
    | .log _ => none
    | .failed failure => some failure.report

@[simp]
theorem reports_log (m : Machine σ) (event : LogEvent) : (m.log event).reports = m.reports := by
  rw [log]
  split
  · simp [reports]
  · rfl

@[simp]
theorem reports_fail (m : Machine σ) (failure : Failure) :
    (m.fail failure).reports = m.reports ++ [failure.report] := by
  simp [reports, fail]

/-! ## What a failed evaluation leaves -/

end Machine

open Machine

namespace Machine

/-- Two machines that differ in one report, which the first one has after those before it, and
in names bound to zero. -/
structure OneMore (before : List String) (line : String) (m n : Machine σ) : Prop where
  store : m.store.Alike n.store
  sink : m.sink = n.sink
  reports : ∃ later, m.reports = before ++ line :: later ∧ n.reports = before ++ later
  errors : m.errors = n.errors + 1

variable {before : List String} {line : String} {m n : Machine σ}

theorem OneMore.log (h : OneMore before line m n) (event : LogEvent) :
    OneMore before line (m.log event) (n.log event) := by
  refine ⟨?_, ?_, ?_, ?_⟩
  · simpa using h.store
  · simpa using h.sink
  · simpa using h.reports
  · simpa using h.errors

theorem OneMore.fail (h : OneMore before line m n) (failure : Failure) :
    OneMore before line (m.fail failure) (n.fail failure) := by
  obtain ⟨later, here, there⟩ := h.reports
  refine ⟨h.store, h.sink, ⟨later ++ [failure.report], ?_, ?_⟩, ?_⟩
  · rw [reports_fail, here, List.append_assoc, List.cons_append]
  · rw [reports_fail, there, List.append_assoc]
  · rw [fail_errors, fail_errors, h.errors]

variable [Outlet σ]

/-- Both sinks are the same, so both take the line or both refuse it. -/
theorem OneMore.print (h : OneMore before line m n) (value : Int32) :
    OneMore before line (settle .out (m.print value)) (settle .out (n.print value)) := by
  rw [print_eq, print_eq, ← h.sink]
  have printed : OneMore before line { m with sink := (Outlet.print m.sink value).2 }
      { n with sink := (Outlet.print m.sink value).2 } := ⟨h.store, rfl, h.reports, h.errors⟩
  cases (Outlet.print m.sink value).1 with
  | ok done => exact printed
  | error refusal => exact (printed.log _).fail _

end Machine

variable [Outlet σ]

theorem performAll_append (rounds : Nat) (xs ys : List Node) (m : Machine σ) :
    performAll rounds (xs ++ ys) m = (performAll rounds xs m).bind (performAll rounds ys) := by
  induction xs generalizing m with
  | nil => rfl
  | cons node xs ih =>
      rw [List.cons_append, performAll, performAll, Option.bind_assoc]
      exact congrArg _ (funext ih)

end WhenLoop
