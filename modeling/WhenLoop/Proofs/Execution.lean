import WhenLoop.Run.Rounds

/-!
# The shape of execution

All statements but a list start with an evaluation and go on with its value.
`Machine.onValue` is this step, and the equations here write assignments, outputs,
conditionals and the rounds of a loop through it.  A property of runs is then shown once for
the step and not once for each kind of statement.

`Node.statement_induction` is the induction over what a statement runs.  A node that is no
statement counts as a leaf, whatever is in it, since running it only fails.

`Machine.ExecutesTo` and `Machine.RunsTo` speak of runs that end, under whatever bound.
-/

namespace WhenLoop

/-! ## Evaluations one after the other -/

namespace Evaluation

variable {α β : Type}

/-- What follows an evaluation sees its value and leaves its store. -/
theorem andThen_eq (first : Evaluation α) (next : α → Except Failure β) (s : Store) :
    first.andThen next s = ((first s).1.bind next, (first s).2) := by
  rw [andThen]
  split
  · rename_i same
    rw [same]
    rfl
  · rename_i same
    rw [same]
    rfl

/-- When the left side fails the right side is not evaluated. -/
theorem both_of_error {left : Evaluation α} {s : Store} {failure : Failure}
    (h : (left s).1 = .error failure) (right : Evaluation α) (join : α → α → Except Failure β) :
    left.both right join s = (.error failure, (left s).2) := by
  rw [both]
  split
  · rename_i same
    rw [same] at h ⊢
    rw [Except.error.inj h]
  · rename_i same
    rw [same] at h
    cases h

/-- When the left side has a value the right side is evaluated on the store that it leaves. -/
theorem both_of_ok {left : Evaluation α} {s : Store} {a : α} (h : (left s).1 = .ok a)
    (right : Evaluation α) (join : α → α → Except Failure β) :
    left.both right join s = right.andThen (join a) (left s).2 := by
  rw [both]
  split
  · rename_i same
    rw [same] at h
    cases h
  · rename_i same
    rw [same] at h ⊢
    rw [Except.ok.inj h]

end Evaluation

/-! ## What the actions leave -/

variable {σ : Type}

/-- Write the line of a value and flush.  After a refused write there is no flush. -/
def Outlet.print [Outlet σ] (sink : σ) (value : Int32) : Except Refusal Unit × σ :=
  match write sink (Machine.lineOf value) with
  | (.error refusal, sink) => (.error refusal, sink)
  | (.ok _, sink) => flush sink

namespace Machine

@[simp]
theorem log_store (m : Machine σ) (event : LogEvent) : (m.log event).store = m.store := by
  rw [log]
  split <;> rfl

@[simp]
theorem log_sink (m : Machine σ) (event : LogEvent) : (m.log event).sink = m.sink := by
  rw [log]
  split <;> rfl

@[simp]
theorem log_errors (m : Machine σ) (event : LogEvent) : (m.log event).errors = m.errors := by
  rw [log]
  split <;> rfl

@[simp]
theorem fail_store (m : Machine σ) (failure : Failure) : (m.fail failure).store = m.store := rfl

@[simp]
theorem fail_sink (m : Machine σ) (failure : Failure) : (m.fail failure).sink = m.sink := rfl

@[simp]
theorem fail_errors (m : Machine σ) (failure : Failure) :
    (m.fail failure).errors = m.errors + 1 := rfl

section Output

variable [Outlet σ]

/-- A write of a machine fails exactly if the sink refuses it. -/
theorem write_fst (m : Machine σ) (bytes : ByteArray) :
    (m.write bytes).1 = (Outlet.write m.sink bytes).1.mapError .output := rfl

theorem flush_fst (m : Machine σ) : m.flush.1 = (Outlet.flush m.sink).1.mapError .output := rfl

/-- To print changes the sink and nothing else of the machine, and fails if the sink refuses. -/
theorem print_eq (m : Machine σ) (value : Int32) :
    m.print value
      = ((Outlet.print m.sink value).1.mapError .output,
          { m with sink := (Outlet.print m.sink value).2 }) := by
  cases h : Outlet.write m.sink (lineOf value) with
  | mk result sink =>
      rw [print, Outlet.print, write, h]
      cases result with
      | error refusal => rfl
      | ok done => rfl

end Output

theorem mapError_ok (done : Unit) : Except.mapError Failure.output (.ok done) = .ok done := rfl

theorem mapError_error (refusal : Refusal) :
    Except.mapError Failure.output (.error refusal : Except Refusal Unit)
      = .error (.output refusal) :=
  rfl

/-- A failure to write or flush is a refusal of the sink. -/
theorem refusal_of_mapError {result : Except Refusal Unit} {failure : Failure}
    (h : result.mapError .output = .error failure) :
    ∃ refusal, result = .error refusal ∧ failure = .output refusal := by
  cases result with
  | ok _ => cases h
  | error refusal =>
      cases h
      exact ⟨refusal, rfl, rfl⟩

/-! ## Steps that start with an evaluation -/

/-- Evaluate, and go on with the value. -/
def onValue {α : Type} (e : Evaluation α) (next : α → Execution σ) : Execution σ := fun m =>
  match m.evaluate e with
  | (.error failure, m) => some (.error failure, m)
  | (.ok a, m) => next a m

/-- A failed evaluation ends the step, and the store keeps what it bound. -/
theorem onValue_error {α : Type} {e : Evaluation α} {m : Machine σ} {failure : Failure}
    (h : (e m.store).1 = .error failure) (next : α → Execution σ) :
    onValue e next m = some (.error failure, { m with store := (e m.store).2 }) := by
  simp only [onValue, evaluate, h]

/-- With a value the step goes on, on the store that the evaluation leaves. -/
theorem onValue_ok {α : Type} {e : Evaluation α} {m : Machine σ} {a : α}
    (h : (e m.store).1 = .ok a) (next : α → Execution σ) :
    onValue e next m = next a { m with store := (e m.store).2 } := by
  simp only [onValue, evaluate, h]

/-- A step that starts with an evaluation fails there, or goes on with the value. -/
theorem onValue_cases {α : Type} {e : Evaluation α} {next : α → Execution σ}
    {m m' : Machine σ} {result : Except Failure Unit} (run : onValue e next m = some (result, m')) :
    (∃ failure, (e m.store).1 = .error failure ∧ result = .error failure ∧
      { m with store := (e m.store).2 } = m') ∨
    ∃ a, (e m.store).1 = .ok a ∧ next a { m with store := (e m.store).2 } = some (result, m') := by
  cases value : (e m.store).1 with
  | error failure =>
      rw [onValue_error value] at run
      cases run
      exact .inl ⟨failure, rfl, rfl, rfl⟩
  | ok a =>
      rw [onValue_ok value] at run
      exact .inr ⟨a, rfl, run⟩

/-- A loop with a round left evaluates its test, and then runs its body and goes on, or ends. -/
theorem iterate_succ (test : Evaluation Bool) (body : Machine σ → Option (Machine σ))
    (rounds : Nat) :
    iterate test body (rounds + 1) = onValue test fun holds m =>
      if holds then (body m).bind (iterate test body rounds) else some (.ok (), m) := by
  funext m
  cases h : (test m.store).1 with
  | error failure =>
      rw [onValue_error h]
      simp only [iterate, evaluate, h]
  | ok holds =>
      rw [onValue_ok h]
      cases holds <;> simp only [iterate, evaluate, h] <;> rfl

end Machine

open Machine (contain iterate onValue)

namespace Node

variable [Outlet σ] (rounds : Nat)

/-- A list never fails. -/
theorem perform_seq (statements : List Node) :
    (seq statements).perform rounds = fun m : Machine σ =>
      (performAll rounds statements m).map fun m => (.ok (), m) := by
  funext m
  rw [perform]

/-- An assignment binds its target to its value. -/
theorem perform_assign (target : String) (value : Node) :
    (assign target value).perform rounds = onValue value.evaluate fun v (m : Machine σ) =>
      some (.ok (), m.assign target v) := by
  funext m
  cases h : (value.evaluate m.store).1 with
  | error failure =>
      rw [Machine.onValue_error h]
      simp only [perform, Machine.evaluate, h]
  | ok v =>
      rw [Machine.onValue_ok h]
      simp only [perform, Machine.evaluate, h]

/-- An output prints its value. -/
theorem perform_out (value : Node) :
    (out value).perform rounds =
      onValue value.evaluate fun v (m : Machine σ) => some (m.print v) := by
  funext m
  cases h : (value.evaluate m.store).1 with
  | error failure =>
      rw [Machine.onValue_error h]
      simp only [perform, Machine.evaluate, h]
  | ok v =>
      rw [Machine.onValue_ok h]
      simp only [perform, Machine.evaluate, h]

/-- A conditional runs one of its branches behind the branch's own boundary, and fails only in its
condition. -/
theorem perform_when (condition thenBranch : Node) (elseBranch : Option Node) :
    (when condition thenBranch elseBranch).perform rounds =
      onValue condition.test fun holds (m : Machine σ) =>
        (contained rounds (if holds then some thenBranch else elseBranch) m).map
          fun m => (.ok (), m) := by
  funext m
  cases h : (condition.test m.store).1 with
  | error failure =>
      rw [Machine.onValue_error h]
      simp only [perform, Machine.evaluate, h]
  | ok holds =>
      rw [Machine.onValue_ok h]
      cases holds <;> simp only [perform, Machine.evaluate, h] <;> rfl

/-- A loop runs its body behind the body's own boundary. -/
theorem perform_loop (condition body : Node) :
    ((loop condition body).perform rounds : Execution σ) =
      iterate condition.test (contain body.kind (body.perform rounds)) rounds := by
  rw [perform]

/-- A node that is no statement.  Running it only fails, wherever output goes. -/
def IsOther (node : Node) : Prop :=
  ∀ {σ : Type} [Outlet σ] (rounds : Nat) (m : Machine σ),
    node.perform rounds m = some (.error (.notStatement node.kind), m)

section Induction

variable {motive : Node → Prop}
  (other : ∀ node : Node, node.IsOther → motive node)
  (assign : ∀ target value, motive (.assign target value))
  (out : ∀ value, motive (.out value))
  (when : ∀ condition thenBranch elseBranch, motive thenBranch →
    (∀ node, elseBranch = some node → motive node) →
    motive (.when condition thenBranch elseBranch))
  (loop : ∀ condition body, motive body → motive (.loop condition body))
  (seq : ∀ statements, (∀ node ∈ statements, motive node) → motive (.seq statements))

include other assign out when loop seq

-- the linter looks at each theorem of the block alone
set_option linter.unusedSectionVars false

mutual

/-- Induction over what a statement runs. -/
theorem statement_induction : ∀ node : Node, motive node
  | .assign target value => assign target value
  | .out value => out value
  | .when condition thenBranch elseBranch =>
      when condition thenBranch elseBranch (statement_induction thenBranch)
        (branch_induction elseBranch)
  | .loop condition body => loop condition body (statement_induction body)
  | .seq statements => seq statements (list_induction statements)
  | .num _ => other _ fun _ _ => by simp only [perform]
  | .var _ => other _ fun _ _ => by simp only [perform]
  | .arith _ _ _ => other _ fun _ _ => by simp only [perform]
  | .neg _ => other _ fun _ _ => by simp only [perform]
  | .compare _ _ _ => other _ fun _ _ => by simp only [perform]
  | .and _ _ => other _ fun _ _ => by simp only [perform]
  | .or _ _ => other _ fun _ _ => by simp only [perform]
  | .not _ => other _ fun _ _ => by simp only [perform]
  | .nonzero _ => other _ fun _ _ => by simp only [perform]

/-- The induction over what a branch runs, which may be missing. -/
theorem branch_induction : ∀ (branch : Option Node) (node : Node), branch = some node → motive node
  | none, _, same => by cases same
  | some branch, _, same => Option.some.inj same ▸ statement_induction branch

/-- The induction over what the statements of a list run. -/
theorem list_induction : ∀ (statements : List Node), ∀ node ∈ statements, motive node
  | [] => List.forall_mem_nil _
  | node :: nodes => List.forall_mem_cons.mpr ⟨statement_induction node, list_induction nodes⟩

end

end Induction

end Node

/-! ## Runs that end -/

namespace Machine

variable [Outlet σ]

/-- Executing the statement on the machine ends, with this result. -/
def ExecutesTo (m : Machine σ) (node : Node) (r : Except Failure Unit × Machine σ) : Prop :=
  ∃ rounds, execute rounds (some node) m = some r

/-- Running the program on the machine ends, and leaves this machine. -/
def RunsTo (m : Machine σ) (root : Option Node) (m' : Machine σ) : Prop :=
  ∃ rounds, m.run rounds root = some m'

end Machine

end WhenLoop
