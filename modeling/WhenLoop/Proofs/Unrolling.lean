import WhenLoop.Proofs.Unset

/-!
# Loops round by round

A loop is a conditional whose branch runs the body and then the loop again.  On the two sides the
failure of a later test is reported at different boundaries, at the loop's own and at that of the
loop inside the branch.  But there is one boundary for it on each side, and what is left behind
it is the same (`Machine.loop_unrolls`).

The two sides log different statements.  `Machine.Matches` is the relation of machines that differ
in their logs only, and `Machine.InStep` says of two actions that they take such machines to such
machines.  Each construct of the language keeps two actions in step.

A bound on the rounds of a loop counts one round more than the bound on the loop inside the
branch.  So the two runs are in step with one round more on the left, and since more rounds
keep a result this makes no difference to where they end (`Machine.endTogether_loop`).
-/

namespace WhenLoop

variable {σ : Type}

namespace Machine

/-! ## Machines that differ in their logs -/

/-- Two machines that differ in what they logged only. -/
structure Matches (m n : Machine σ) : Prop where
  store : m.store = n.store
  sink : m.sink = n.sink
  errors : m.errors = n.errors
  reports : m.reports = n.reports

namespace Matches

variable {m n l : Machine σ}

theorem refl (m : Machine σ) : m.Matches m := ⟨rfl, rfl, rfl, rfl⟩

theorem symm (h : m.Matches n) : n.Matches m :=
  ⟨h.store.symm, h.sink.symm, h.errors.symm, h.reports.symm⟩

theorem trans (h : m.Matches n) (h' : n.Matches l) : m.Matches l where
  store := h.store.trans h'.store
  sink := h.sink.trans h'.sink
  errors := h.errors.trans h'.errors
  reports := h.reports.trans h'.reports

theorem log_left (h : m.Matches n) (event : LogEvent) : (m.log event).Matches n := by
  refine ⟨?_, ?_, ?_, ?_⟩
  · simpa using h.store
  · simpa using h.sink
  · simpa using h.errors
  · simpa using h.reports

theorem log_right (h : m.Matches n) (event : LogEvent) : m.Matches (n.log event) :=
  (h.symm.log_left event).symm

theorem fail (h : m.Matches n) (failure : Failure) : (m.fail failure).Matches (n.fail failure) := by
  refine ⟨h.store, h.sink, ?_, ?_⟩
  · rw [fail_errors, fail_errors, h.errors]
  · rw [reports_fail, reports_fail, h.reports]

theorem with_store (h : m.Matches n) (s : Store) :
    { m with store := s }.Matches { n with store := s } :=
  ⟨rfl, h.sink, h.errors, h.reports⟩

/-- The kind of a failed statement is logged and not reported. -/
theorem settle {result : Except Failure Unit} (h : m.Matches n) (kind kind' : NodeKind) :
    (settle kind (result, m)).Matches (Machine.settle kind' (result, n)) := by
  cases result with
  | ok done => exact h
  | error failure => exact ((h.log_left _).log_right _).fail failure

end Matches

/-- The second run ends with both of the others. -/
theorem EndTogether.trans {first second third : Nat → Option (Machine σ)}
    (h : EndTogether Matches first second) (h' : EndTogether Matches second third) :
    EndTogether Matches first third := by
  refine ⟨h.1.trans h'.1, fun a c ends ends' => ?_⟩
  obtain ⟨k, same⟩ := ends
  obtain ⟨b, between⟩ := h.1.mp ⟨a, k, same⟩
  exact (h.2 a b ⟨k, same⟩ between).trans (h'.2 b c between ends')

/-- No action reads what was logged. -/
theorem matches_simulation [Outlet σ] :
    Simulation (Matches : Machine σ → Machine σ → Prop) where
  log h event := (h.log_left event).log_right event
  fail h failure := h.fail failure
  evaluate h _ := by
    rw [h.store]
    exact ⟨rfl, h.with_store _⟩
  assign h name value := by
    rw [assign, assign, h.store]
    exact h.with_store _
  print {m n} h value := by
    rw [print_eq, print_eq, h.sink]
    have printed : { m with sink := (Outlet.print n.sink value).2 }.Matches
        { n with sink := (Outlet.print n.sink value).2 } := ⟨h.store, rfl, h.errors, h.reports⟩
    exact printed.settle _ _

/-! ## Actions in step -/

/-- Two actions that take machines that match to machines that match, or both end nowhere. -/
def InStep (act act' : Machine σ → Option (Machine σ)) : Prop :=
  ∀ ⦃m n : Machine σ⦄, m.Matches n → Option.Rel Matches (act m) (act' n)

/-- What an action leaves behind the boundary of a statement that was entered. -/
def behind (kind : NodeKind) (act : Execution σ) (m : Machine σ) : Option (Machine σ) :=
  (act m).map (settle kind)

theorem behind_success (kind : NodeKind) (act : Machine σ → Option (Machine σ)) :
    behind kind (fun m => (act m).map fun m => (.ok (), m)) = act :=
  funext fun m => settle_success kind (act m)

theorem behind_bind (kind : NodeKind) (act : Machine σ → Option (Machine σ)) (next : Execution σ) :
    behind kind (fun m => (act m).bind next) = fun m => (act m).bind (behind kind next) :=
  funext fun _ => Option.map_bind

namespace InStep

variable {kind kind' : NodeKind} {act act' next next' : Machine σ → Option (Machine σ)}

theorem contained [Outlet σ] (rounds : Nat) (statement : Option Node) :
    InStep (contained rounds statement : Machine σ → Option (Machine σ))
      (WhenLoop.contained rounds statement) :=
  fun _ _ rel => matches_simulation.contained rounds statement rel

theorem log_left (h : InStep act act') (event : LogEvent) :
    InStep (fun m => act (m.log event)) act' :=
  fun _ _ rel => h (rel.log_left event)

theorem log_right (h : InStep act act') (event : LogEvent) :
    InStep act fun n => act' (n.log event) :=
  fun _ _ rel => h (rel.log_right event)

theorem bind (h : InStep act act') (h' : InStep next next') :
    InStep (fun m => (act m).bind next) fun n => (act' n).bind next' :=
  fun _ _ rel => rel_bind (h rel) fun rel' => h' rel'

theorem contain {run run' : Execution σ} (h : InStep (behind kind run) (behind kind' run')) :
    InStep (contain kind run) (Machine.contain kind' run') :=
  (h.log_left _).log_right _

/-- Machines that match have the same store, so both evaluate alike. -/
theorem onValue {α : Type} {e : Evaluation α} {run run' : α → Execution σ}
    (h : ∀ a, InStep (behind kind (run a)) (behind kind' (run' a))) :
    InStep (behind kind (onValue e run)) (behind kind' (Machine.onValue e run')) := by
  intro m n rel
  cases value : (e m.store).1 with
  | error failure =>
      rw [behind, behind, onValue_error value, onValue_error (rel.store ▸ value), rel.store]
      exact .some ((rel.with_store _).settle _ _)
  | ok a =>
      rw [behind, behind, onValue_ok value, onValue_ok (rel.store ▸ value), rel.store]
      exact h a (rel.with_store _)

/-- By induction on the bound on the rounds. -/
theorem iterate {test : Evaluation Bool} (h : InStep act act') (rounds : Nat) :
    InStep (behind kind (iterate test act rounds))
      (behind kind' (Machine.iterate test act' rounds)) := by
  induction rounds with
  | zero => exact fun _ _ _ => .none
  | succ rounds ih =>
      rw [iterate_succ, iterate_succ]
      refine onValue fun holds => ?_
      cases holds with
      | false => exact fun _ _ rel => .some rel
      | true =>
          simp only [if_true, behind_bind]
          exact h.bind ih

end InStep

/-! ## Loops and their first round -/

variable [Outlet σ] {condition body : Node} {m n : Machine σ}

/-- A loop with one bound on its rounds and another one on those inside its body. -/
def loopWithin (condition body : Node) (inner rounds : Nat) : Machine σ → Option (Machine σ) :=
  contain .loop (iterate condition.test (contain body.kind (body.perform inner)) rounds)

/-- A loop takes the bound for its own rounds and for those inside. -/
theorem contained_loop (k : Nat) :
    (contained k (some (.loop condition body)) : Machine σ → Option (Machine σ)) =
      loopWithin condition body k k := by
  funext m
  rw [contained, Node.perform_loop]
  rfl

/-- With more rounds of either sort it ends the same way. -/
theorem loopWithin_mono {k k' j j' : Nat} {m' : Machine σ} (le : k ≤ k') (le' : j ≤ j')
    (h : loopWithin condition body k j m = some m') :
    loopWithin condition body k' j' m = some m' :=
  contain_mono (iterate_mono (contain_mono (body.perform_mono le)) le') h

/-- A loop ends together with a run that is in step with it when it has one round more. -/
theorem endTogether_loop {other : Nat → Option (Machine σ)} {least : Nat}
    (keeps : ∀ {k more m'}, k ≤ more → other k = some m' → other more = some m')
    (lockstep : ∀ k, least ≤ k →
      Option.Rel Matches (loopWithin condition body k (k + 1) m) (other k)) :
    EndTogether Matches (fun k => contained k (some (.loop condition body)) m) other := by
  have same (m' : Machine σ) : (∃ k, loopWithin condition body k (k + 1) m = some m') ↔
      ∃ k, contained k (some (.loop condition body)) m = some m' := by
    simp only [contained_loop]
    constructor
    · rintro ⟨k, ends⟩
      exact ⟨k + 1, loopWithin_mono (Nat.le_succ k) (Nat.le_refl _) ends⟩
    · rintro ⟨k, ends⟩
      exact ⟨k, loopWithin_mono (Nat.le_refl k) (Nat.le_succ k) ends⟩
  obtain ⟨together, related⟩ := ends_of_lockstep
    (fun le => loopWithin_mono le (Nat.succ_le_succ le)) keeps lockstep
  simp only [same] at together related
  exact ⟨together, related⟩

/-- A list never fails, so its boundary does nothing. -/
theorem contained_seq (rounds : Nat) (nodes : List Node) :
    contained rounds (some (.seq nodes)) = fun m : Machine σ =>
      performAll rounds nodes (m.log (.entering .seq)) := by
  funext m
  rw [contained, contain, Node.perform_seq, settle_success]
  rfl

/-- With one round more a loop is in step with the conditional that runs the body and then the
loop. -/
theorem loop_inStep (condition body : Node) (k : Nat) :
    InStep (loopWithin condition body k (k + 1) : Machine σ → Option (Machine σ))
      (contained k (some (.when condition (.seq [body, .loop condition body]) none))) := by
  have bodies : InStep (contain body.kind (body.perform k : Execution σ))
      (contain body.kind (body.perform k)) :=
    .contained k (some body)
  rw [loopWithin, iterate_succ, contained, Node.perform_when]
  refine .contain (.onValue fun holds => ?_)
  rw [behind_success]
  cases holds with
  | false => exact fun _ _ rel => .some rel
  | true =>
      simp only [if_true, behind_bind, contained_seq, performAll, Node.perform_loop]
      refine InStep.log_right (bodies.bind fun m n rel => ?_) _
      rw [Option.bind_fun_some]
      exact (bodies.iterate k).log_right _ rel

/-! ## Rounds -/

/-- A number of rounds of a loop take the first machine to the second.  In each of them the
condition holds and the body runs to its end, whether it fails or not. -/
inductive Rounds (condition body : Node) : Nat → Machine σ → Machine σ → Prop where
  | none (m : Machine σ) : Rounds condition body 0 m m
  | next {k : Nat} {m m' : Machine σ} {r : Except Failure Unit × Machine σ} :
      (condition.test m.store).1 = .ok true →
      ExecutesTo { m with store := (condition.test m.store).2 } body r →
      Rounds condition body k (settle body.kind r) m' → Rounds condition body (k + 1) m m'

/-- Behind one round a loop goes on from where the body leaves the machine. -/
theorem endTogether_round {r : Except Failure Unit × Machine σ}
    (holds : (condition.test m.store).1 = .ok true)
    (ran : ExecutesTo { m with store := (condition.test m.store).2 } body r) :
    EndTogether Matches (fun k => contained k (some (.loop condition body)) m)
      (fun k => contained k (some (.loop condition body)) (settle body.kind r)) := by
  obtain ⟨least, ran⟩ := ran
  refine endTogether_loop (fun le => contained_mono le _) fun k (le : least ≤ k) => ?_
  have bodies : InStep (contain body.kind (body.perform k : Execution σ))
      (contain body.kind (body.perform k)) :=
    .contained k (some body)
  have settled : contain body.kind (body.perform k) { m with store := (condition.test m.store).2 }
      = some (settle body.kind r) :=
    Option.map_eq_some_iff.mpr ⟨r, body.perform_mono le ran, rfl⟩
  have entered := ((Matches.refl m).log_left (.entering .loop)).with_store
    (condition.test m.store).2
  obtain ⟨m₁, first, rel⟩ := rel_some_right (settled ▸ bodies entered)
  rw [contained_loop, loopWithin, contain, iterate_succ,
    onValue_ok (a := true) (by rw [log_store, holds])]
  simp only [if_true, log_store, first, Option.bind_some]
  exact (bodies.iterate k).log_right _ rel

/-- Behind any number of rounds a loop goes on from where they leave the machine. -/
theorem Rounds.endTogether {k : Nat} {m' : Machine σ} (h : Rounds condition body k m m') :
    EndTogether Matches (fun k => contained k (some (.loop condition body)) m)
      (fun k => contained k (some (.loop condition body)) m') := by
  induction h with
  | none m =>
      exact ends_of_lockstep (fun le => contained_mono le _) (fun le => contained_mono le _)
        fun k (_ : 0 ≤ k) => InStep.contained k _ (.refl m)
  | next holds ran _ ih => exact (endTogether_round holds ran).trans ih

/-- A loop whose condition fails ends there, and reports this one failure. -/
theorem loop_failed (body : Node) {failure : Failure}
    (fails : (condition.test m.store).1 = .error failure) :
    ∃ n, contained 1 (some (.loop condition body)) m = some n ∧
      n.Matches (fail { m with store := (condition.test m.store).2 } failure) := by
  have entered : (m.log (.entering .loop)).Matches m := (Matches.refl m).log_left _
  have fails' : (condition.test (m.log (.entering .loop)).store).1 = .error failure := by
    rw [log_store, fails]
  rw [contained_loop, loopWithin, contain, iterate_succ, onValue_error fails', log_store]
  exact ⟨_, rfl, ((entered.with_store _).log_left _).fail failure⟩

/-- A loop and the conditional that runs the body and then the loop end together, and differ in
what they log only.  Behind any number of rounds the loop goes on, also if the body failed in
them.  A condition that fails behind them ends the loop, and to what the rounds left it adds the
one report of this failure. -/
theorem loop_unrolls (condition body : Node) (m : Machine σ) :
    EndTogether Matches (fun rounds => contained rounds (some (.loop condition body)) m)
      (fun rounds => contained rounds
        (some (.when condition (.seq [body, .loop condition body]) none)) m) ∧
    (∀ k m', Rounds condition body k m m' →
      EndTogether Matches (fun rounds => contained rounds (some (.loop condition body)) m)
        (fun rounds => contained rounds (some (.loop condition body)) m')) ∧
    ∀ k m' failure, Rounds condition body k m m' →
      (condition.test m'.store).1 = .error failure →
      ∃ rounds n, contained rounds (some (.loop condition body)) m = some n ∧
        n.store = (condition.test m'.store).2 ∧ n.sink = m'.sink ∧
        n.errors = m'.errors + 1 ∧ n.reports = m'.reports ++ [failure.report] := by
  refine ⟨?_, fun k m' rounds => rounds.endTogether, fun k m' failure rounds fails => ?_⟩
  · exact endTogether_loop (fun le => contained_mono le _) fun k (_ : 0 ≤ k) =>
      loop_inStep condition body k (.refl m)
  · obtain ⟨last, ends, failed⟩ := loop_failed body fails
    obtain ⟨together, related⟩ := rounds.endTogether
    obtain ⟨n, rounds', ends'⟩ := together.mpr ⟨last, 1, ends⟩
    have left := (related n last ⟨rounds', ends'⟩ ⟨1, ends⟩).trans failed
    exact ⟨rounds', n, ends', left.store, left.sink, left.errors, by
      rw [left.reports, reports_fail]
      rfl⟩

end Machine

end WhenLoop
