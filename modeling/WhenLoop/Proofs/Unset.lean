import WhenLoop.Proofs.Containment

/-!
# A name that is not set is a name that is zero

Reading a name that is not bound gives zero and binds it.  So two stores that differ in names
bound to zero stay that way, and no run tells them apart (`Machine.Alike`).  This holds for every
tree, whether its nodes are in their places or not, and for a statement with and without its
boundary and for a whole program (`Machine.ends_alike`).

`Simulation` speaks of what is left behind a boundary.  For a statement without its boundary the
result counts as well, and it is the same on both sides if the two sinks refuse the same outputs
(`Simulation.perform_results`).
-/

namespace WhenLoop

variable {σ : Type}

namespace Machine

/-! ## Results in lockstep -/

/-- The same result, with related machines. -/
def SameResult (R : Machine σ → Machine σ → Prop) (r r' : Except Failure Unit × Machine σ) : Prop :=
  r.1 = r'.1 ∧ R r.2 r'.2

variable {R : Machine σ → Machine σ → Prop} {m n : Machine σ}

theorem rel_success {first second : Option (Machine σ)} (h : Option.Rel R first second) :
    Option.Rel (SameResult R) (first.map fun m => (.ok (), m))
      (second.map fun m => (.ok (), m)) :=
  rel_map h fun rel => ⟨rfl, rel⟩

namespace Simulation

variable [Outlet σ] (sim : Simulation R)
include sim

/-- Both evaluate alike, so both give the failure or both go on. -/
theorem onValue_results {α : Type} {e : Evaluation α} (faithful : e.Faithful)
    {next : α → Execution σ}
    (h : ∀ a {m n : Machine σ}, R m n → Option.Rel (SameResult R) (next a m) (next a n))
    (rel : R m n) :
    Option.Rel (SameResult R) (Machine.onValue e next m) (Machine.onValue e next n) := by
  obtain ⟨same, rel'⟩ := sim.evaluate rel faithful
  cases value : (e m.store).1 with
  | error failure =>
      rw [onValue_error value, onValue_error (same ▸ value)]
      exact .some ⟨rfl, rel'⟩
  | ok a =>
      rw [onValue_ok value, onValue_ok (same ▸ value)]
      exact h a rel'

/-- By induction on the bound.  The tests agree, and the bodies lead to related machines. -/
theorem iterate_results {test : Evaluation Bool} (faithful : test.Faithful)
    {body : Machine σ → Option (Machine σ)}
    (h : ∀ {m n : Machine σ}, R m n → Option.Rel R (body m) (body n)) (rounds : Nat)
    (rel : R m n) :
    Option.Rel (SameResult R) (Machine.iterate test body rounds m)
      (Machine.iterate test body rounds n) := by
  induction rounds generalizing m n with
  | zero => exact .none
  | succ rounds ih =>
      rw [iterate_succ]
      refine sim.onValue_results faithful (fun holds m n rel => ?_) rel
      cases holds with
      | false => exact .some ⟨rfl, rel⟩
      | true =>
          -- the body is behind its boundary, so it only leaves a machine for the next round
          have bodies := h rel
          simp only [if_true]
          generalize body m = first, body n = second at bodies
          cases bodies with
          | none => exact .none
          | some rel' => exact ih rel'

/-- If both sinks refuse the same outputs then a statement without its boundary has the same
result on related machines. -/
theorem perform_results
    (prints : ∀ {m n : Machine σ}, R m n → ∀ value, SameResult R (m.print value) (n.print value))
    (rounds : Nat) (node : Node) (rel : R m n) :
    Option.Rel (SameResult R) (node.perform rounds m) (node.perform rounds n) := by
  induction node using Node.statement_induction with
  | other node other =>
      rw [other, other]
      exact .some ⟨rfl, rel⟩
  | assign target value =>
      rw [Node.perform_assign]
      refine sim.onValue_results value.evaluate_faithful (fun v m n rel => ?_) rel
      exact .some ⟨rfl, sim.assign rel target v⟩
  | out value =>
      rw [Node.perform_out]
      refine sim.onValue_results value.evaluate_faithful (fun v m n rel => ?_) rel
      exact .some (prints rel v)
  | when condition thenBranch elseBranch _ _ =>
      rw [Node.perform_when]
      refine sim.onValue_results condition.test_faithful (fun holds m n rel => ?_) rel
      exact rel_success (sim.contained rounds _ rel)
  | loop condition body _ =>
      rw [Node.perform_loop]
      have bodies := fun {m n : Machine σ} (rel : R m n) =>
        sim.contain (sim.perform rounds body) rel
      exact sim.iterate_results condition.test_faithful bodies rounds rel
  | seq statements _ =>
      rw [Node.perform_seq]
      exact rel_success (sim.performAll (fun node _ => sim.perform rounds node) rel)

end Simulation

/-! ## Machines that differ in names bound to zero -/

/-- Two machines that no run tells apart: their stores give every name the same value. -/
structure Alike (m n : Machine σ) : Prop where
  store : m.store.Alike n.store
  sink : m.sink = n.sink
  errors : m.errors = n.errors
  reports : m.reports = n.reports

theorem Alike.log (h : m.Alike n) (event other : LogEvent) : (m.log event).Alike (n.log other) := by
  refine ⟨?_, ?_, ?_, ?_⟩
  · simpa using h.store
  · simpa using h.sink
  · simpa using h.errors
  · simpa using h.reports

theorem Alike.fail (h : m.Alike n) (failure : Failure) :
    (m.fail failure).Alike (n.fail failure) := by
  refine ⟨h.store, h.sink, ?_, ?_⟩
  · rw [fail_errors, fail_errors, h.errors]
  · rw [reports_fail, reports_fail, h.reports]

theorem SameResult.settle {kind : NodeKind} {r r' : Except Failure Unit × Machine σ}
    (h : SameResult Alike r r') : (settle kind r).Alike (settle kind r') := by
  obtain ⟨result, m⟩ := r
  obtain ⟨_, n⟩ := r'
  obtain ⟨rfl, alike⟩ := h
  cases result with
  | ok done => exact alike
  | error failure => exact (alike.log _ _).fail failure

variable [Outlet σ]

theorem Alike.print (h : m.Alike n) (value : Int32) :
    SameResult Alike (m.print value) (n.print value) := by
  rw [print_eq, print_eq, h.sink]
  exact ⟨rfl, h.store, rfl, h.errors, h.reports⟩

/-- Nothing but values is read from a store. -/
theorem alike_simulation : Simulation (Alike : Machine σ → Machine σ → Prop) where
  log h event := h.log event event
  fail h failure := h.fail failure
  evaluate h faithful :=
    ⟨faithful.result h.store, faithful.alike h.store, h.sink, h.errors, h.reports⟩
  assign h name value := ⟨h.store.write name value, h.sink, h.errors, h.reports⟩
  print h value := SameResult.settle (h.print value)

-- the two logs of the end may differ, since they count the bound names
/-- Both sinks are the same, so the last flush is refused to both or to neither. -/
theorem Alike.finish (h : m.Alike n) : m.finish.Alike n.finish := by
  have flushed (sink : σ) : { m with sink := sink }.Alike { n with sink := sink } :=
    ⟨h.store, rfl, h.errors, h.reports⟩
  rw [Machine.finish, Machine.finish, flush, flush, h.sink]
  cases Outlet.flush n.sink with
  | mk result sink =>
      cases result with
      | ok done => exact (flushed sink).log _ _
      | error refusal => exact ((flushed sink).fail _).log _ _

/-- Two runs end together: both have a result under some bound or neither has under any, and the
results are related, whatever the bounds are. -/
def EndTogether {α : Type} (r : α → α → Prop) (first second : Nat → Option α) : Prop :=
  ((∃ a k, first k = some a) ↔ ∃ b k, second k = some b) ∧
    ∀ a b, (∃ k, first k = some a) → (∃ k, second k = some b) → r a b

/-- A run that ended under a bound ends the same way under a larger one. -/
theorem execute_mono {rounds more : Nat} {statement : Option Node}
    {r : Except Failure Unit × Machine σ} (le : rounds ≤ more)
    (h : execute rounds statement m = some r) : execute more statement m = some r := by
  cases statement with
  | none => exact h
  | some node => exact node.perform_mono le h

/-- A name that is not bound cannot be told from a name that is bound to zero.  On two stores
that give every name the same value a statement ends or not alike, without its boundary, behind
it and as a program.  The result is the same, and so are the sink, the reports and the count of
failures, and the stores that are left again give every name the same value. -/
theorem ends_alike (statement : Option Node) (m : Machine σ) {s t : Store} (alike : s.Alike t) :
    EndTogether (SameResult Alike) (fun rounds => execute rounds statement { m with store := s })
      (fun rounds => execute rounds statement { m with store := t }) ∧
    EndTogether Alike (fun rounds => contained rounds statement { m with store := s })
      (fun rounds => contained rounds statement { m with store := t }) ∧
    EndTogether Alike (fun rounds => run rounds statement { m with store := s })
      (fun rounds => run rounds statement { m with store := t }) := by
  have sim : Simulation (Alike : Machine σ → Machine σ → Prop) := alike_simulation
  have rel : Alike { m with store := s } { m with store := t } := ⟨alike, rfl, rfl, rfl⟩
  refine ⟨?_, ?_, ?_⟩
  · refine ends_of_lockstep execute_mono execute_mono fun rounds (_ : 0 ≤ rounds) => ?_
    cases statement with
    | none => exact .some ⟨rfl, rel⟩
    | some node =>
        exact sim.perform_results (fun h value => h.print value) rounds node (rel.log _ _)
  · exact ends_of_lockstep (fun le => contained_mono le statement)
      (fun le => contained_mono le statement) fun rounds (_ : 0 ≤ rounds) =>
        sim.contained rounds statement rel
  · refine ends_of_lockstep (fun le => run_mono le) (fun le => run_mono le)
      fun rounds (_ : 0 ≤ rounds) => ?_
    exact rel_map (sim.contained rounds statement (rel.log _ _)) fun rel' => rel'.finish

/-- Reading `x` in the condition of a loop, on a store without `x` and on one where it is zero. -/
theorem ends_alike_loop :
    Store.empty.Alike (Store.empty.write "x" 0) ∧
    ∃ m n, (new Sink.unlimited none).RunsTo (some (.loop (.compare .lt (.var "x") (.num 1))
        (.assign "x" (.arith .add (.var "x") (.num 1))))) m ∧
      RunsTo { new Sink.unlimited none with store := Store.empty.write "x" 0 }
        (some (.loop (.compare .lt (.var "x") (.num 1))
          (.assign "x" (.arith .add (.var "x") (.num 1))))) n ∧
      m.Alike n := by
  have alike : Store.empty.Alike (Store.empty.write "x" 0) := by
    intro name
    rw [Store.value_write, Store.value_empty]
    exact (ite_self 0).symm
  have together := (ends_alike (some (.loop (.compare .lt (.var "x") (.num 1))
    (.assign "x" (.arith .add (.var "x") (.num 1))))) (new Sink.unlimited none) alike).2.2
  exact ⟨alike, _, _, ⟨3, rfl⟩, ⟨3, rfl⟩, together.2 _ _ ⟨3, rfl⟩ ⟨3, rfl⟩⟩

end Machine

end WhenLoop
