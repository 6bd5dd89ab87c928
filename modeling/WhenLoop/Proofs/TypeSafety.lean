import WhenLoop.Proofs.Execution
import WhenLoop.Proofs.Typing

/-!
# What can go wrong in an accepted program

Of the failures, `notExpression`, `notCondition` and `notStatement` arise at a node that is
out of place.  A typed tree has none, so in a run of one only a zero divisor and a refusal of
the sink can arise, and with a sink that never refuses anything only a zero divisor.

The invariant of a run is `Machine.Leads m m'`: the journal of `m` was only added to, with
expected failures, and the sink still refuses nothing if it never did.  It is reflexive and
transitive, every action of a machine has it, and so it goes through lists, branches and any
number of rounds of a loop.
-/

namespace WhenLoop

variable {σ : Type}

/-! ## Sinks that never refuse -/

namespace Outlet

variable [Outlet σ]

/-- Writes and flushes take the first sink to the second, whether they are refused or not. -/
inductive Reaches : σ → σ → Prop where
  | refl {sink : σ} : Reaches sink sink
  | write {sink later : σ} (bytes : ByteArray) :
      Reaches (write sink bytes).2 later → Reaches sink later
  | flush {sink later : σ} : Reaches (flush sink).2 later → Reaches sink later

/-- A sink that refuses nothing, now and after whatever is written to it. -/
def NeverRefuses (sink : σ) : Prop :=
  ∀ later, Reaches sink later → (∀ bytes, (write later bytes).1 = .ok ()) ∧ (flush later).1 = .ok ()

theorem NeverRefuses.write {sink : σ} (h : NeverRefuses sink) (bytes : ByteArray) :
    (write sink bytes).1 = .ok () ∧ NeverRefuses (Outlet.write sink bytes).2 :=
  ⟨(h sink .refl).1 bytes, fun later reaches => h later (.write bytes reaches)⟩

theorem NeverRefuses.flush {sink : σ} (h : NeverRefuses sink) :
    (flush sink).1 = .ok () ∧ NeverRefuses (Outlet.flush sink).2 :=
  ⟨(h sink .refl).2, fun later reaches => h later (.flush reaches)⟩

end Outlet

open Outlet (NeverRefuses)

namespace Sink

/-- A sink with neither of the bounds. -/
def Unbounded (sink : Sink) : Prop := sink.capacity = none ∧ sink.flushes = none

theorem Unbounded.write {sink : Sink} (h : sink.Unbounded) (bytes : ByteArray) :
    (sink.write bytes).1 = .ok () ∧ (sink.write bytes).2.Unbounded := by
  obtain ⟨capacity, flushes⟩ := h
  simp [Sink.write, capacity, flushes, Unbounded]

theorem Unbounded.flush {sink : Sink} (h : sink.Unbounded) :
    sink.flush.1 = .ok () ∧ sink.flush.2.Unbounded := by
  obtain ⟨capacity, flushes⟩ := h
  simp [Sink.flush, capacity, flushes, Unbounded]

/-- A sink without bounds never refuses anything. -/
theorem Unbounded.neverRefuses {sink : Sink} (h : sink.Unbounded) : NeverRefuses sink := by
  intro later reaches
  induction reaches with
  | refl => exact ⟨fun bytes => (h.write bytes).1, h.flush.1⟩
  | write bytes _ ih => exact ih (h.write bytes).2
  | flush _ ih => exact ih h.flush.2

end Sink

/-! ## Expected failures -/

/-- A failure that a typed statement can have.  With a sink that never refuses anything it is a
zero divisor. -/
def Failure.Expected (free : Prop) (failure : Failure) : Prop :=
  failure = .divisionByZero ∨ ¬free ∧ ∃ refusal, failure = .output refusal

theorem Failure.Expected.mono {free free' : Prop} {failure : Failure} (h : failure.Expected free)
    (implied : free' → free) : failure.Expected free' :=
  h.imp_right fun ⟨bound, refused⟩ => ⟨fun stillFree => bound (implied stillFree), refused⟩

/-! ## Evaluation of typed trees -/

namespace Evaluation

/-- The only failure is a zero divisor. -/
def Arithmetic {α : Type} (e : Evaluation α) : Prop :=
  ∀ s failure, (e s).1 = .error failure → failure = .divisionByZero

variable {α β : Type}

/-- A failure is one of the first evaluation or of what comes behind it. -/
theorem Arithmetic.andThen {first : Evaluation α} {next : α → Except Failure β}
    (h : first.Arithmetic) (hn : ∀ a failure, next a = .error failure → failure = .divisionByZero) :
    (first.andThen next).Arithmetic := by
  intro s failure fails
  rw [andThen_eq] at fails
  cases value : (first s).1 with
  | error other =>
      rw [value] at fails
      cases fails
      exact h s failure value
  | ok a =>
      rw [value] at fails
      exact hn a failure fails

/-- A failure is one of an operand or of the operation. -/
theorem Arithmetic.both {left right : Evaluation α} {join : α → α → Except Failure β}
    (hl : left.Arithmetic) (hr : right.Arithmetic)
    (hj : ∀ a b failure, join a b = .error failure → failure = .divisionByZero) :
    (left.both right join).Arithmetic := by
  intro s failure fails
  cases value : (left s).1 with
  | error other =>
      rw [both_of_error value] at fails
      cases fails
      exact hl s failure value
  | ok a =>
      rw [both_of_ok value] at fails
      exact hr.andThen (hj a) _ failure fails

end Evaluation

/-- Only a division fails, and only by zero. -/
theorem ArithOp.apply_eq_error {op : ArithOp} {a b : Int32} {failure : Failure}
    (h : op.apply a b = .error failure) : failure = .divisionByZero := by
  rw [ArithOp.apply] at h
  split at h
  · cases h
  · cases h
    rfl

theorem Node.IsExpression.arithmetic {node : Node} (h : node.IsExpression) :
    node.evaluate.Arithmetic := by
  induction h with
  | num => intro s failure fails; cases fails
  | var => intro s failure fails; cases fails
  | arith _ _ ihl ihr => exact ihl.both ihr fun _ _ _ => ArithOp.apply_eq_error
  | neg _ ih => exact ih.andThen fun _ _ fails => by cases fails

/-- By induction on the condition, down to the expressions in it. -/
theorem Node.IsCondition.arithmetic {node : Node} (h : node.IsCondition) :
    node.test.Arithmetic := by
  induction h with
  | compare hl hr => exact hl.arithmetic.both hr.arithmetic fun _ _ _ fails => by cases fails
  | and _ _ ihl ihr => exact ihl.both ihr fun _ _ _ fails => by cases fails
  | or _ _ ihl ihr => exact ihl.both ihr fun _ _ _ fails => by cases fails
  | not _ ih => exact ih.andThen fun _ _ fails => by cases fails
  | nonzero h => exact h.arithmetic.andThen fun _ _ fails => by cases fails

/-! ## Runs of typed trees -/

namespace Machine

variable [Outlet σ]

/-- The journal was only added to, with expected failures, and the sink refuses nothing if it
never did. -/
structure Leads (m m' : Machine σ) : Prop where
  sink : NeverRefuses m.sink → NeverRefuses m'.sink
  journal : ∃ new : List Notice, m'.journal.toList = m.journal.toList ++ new ∧
    ∀ failure, .failed failure ∈ new → failure.Expected (NeverRefuses m.sink)

theorem Leads.of_journal {m m' : Machine σ} (sink : NeverRefuses m.sink → NeverRefuses m'.sink)
    (journal : m'.journal = m.journal) : m.Leads m' :=
  ⟨sink, [], by rw [journal, List.append_nil], fun _ mem => by cases mem⟩

theorem Leads.refl (m : Machine σ) : m.Leads m := .of_journal id rfl

/-- Journals are added to twice, and what the second part expects of the sink the first one kept. -/
theorem Leads.trans {m₁ m₂ m₃ : Machine σ} (h : m₁.Leads m₂) (h' : m₂.Leads m₃) : m₁.Leads m₃ := by
  obtain ⟨new, same, expected⟩ := h.journal
  obtain ⟨new', same', expected'⟩ := h'.journal
  refine ⟨fun free => h'.sink (h.sink free), new ++ new', ?_, ?_⟩
  · rw [same', same, List.append_assoc]
  · intro failure mem
    rcases List.mem_append.mp mem with old | late
    · exact expected failure old
    · exact (expected' failure late).mono h.sink

theorem leads_log (m : Machine σ) (event : LogEvent) : m.Leads (m.log event) := by
  rw [log]
  split
  · exact ⟨id, [.log event], by simp, by simp⟩
  · exact .refl m

/-- To report a failure that is expected of the first machine leads on from it. -/
theorem Leads.fail {m m' : Machine σ} {failure : Failure} (h : m.Leads m')
    (expected : failure.Expected (NeverRefuses m.sink)) : m.Leads (m'.fail failure) := by
  obtain ⟨new, same, before⟩ := h.journal
  refine ⟨h.sink, new ++ [.failed failure], by simp [Machine.fail, same], fun other mem => ?_⟩
  rcases List.mem_append.mp mem with old | last
  · exact before other old
  · cases List.mem_singleton.mp last
    exact expected

theorem leads_assign (m : Machine σ) (name : String) (value : Int32) :
    m.Leads (m.assign name value) :=
  .of_journal id rfl

/-- A result that a typed statement can have. -/
structure Settles (m : Machine σ) (r : Except Failure Unit × Machine σ) : Prop where
  leads : m.Leads r.2
  expected : ∀ failure, r.1 = .error failure → failure.Expected (NeverRefuses m.sink)

theorem Leads.settles {m m' : Machine σ} (h : m.Leads m') : m.Settles (.ok (), m') :=
  ⟨h, fun _ fails => by cases fails⟩

theorem Leads.settles_trans {m m' : Machine σ} {r : Except Failure Unit × Machine σ}
    (h : m.Leads m') (h' : m'.Settles r) : m.Settles r :=
  ⟨h.trans h'.leads, fun failure fails => (h'.expected failure fails).mono h.sink⟩

/-- A failure that is settled is logged, and it was an expected one. -/
theorem Settles.settle {m : Machine σ} {r : Except Failure Unit × Machine σ} (h : m.Settles r)
    (kind : NodeKind) : m.Leads (settle kind r) := by
  obtain ⟨result, m'⟩ := r
  cases result with
  | ok _ => exact h.leads
  | error failure =>
      have logged := h.leads.trans (leads_log m' (.abandoned kind))
      exact logged.fail (h.expected failure rfl)

/-- Evaluation leads on, and fails with a zero divisor if it fails. -/
theorem onValue_settles {α : Type} {e : Evaluation α} {next : α → Execution σ} (h : e.Arithmetic)
    (goesOn : ∀ a {m r}, next a m = some r → m.Settles r) {m : Machine σ}
    {r : Except Failure Unit × Machine σ} (run : onValue e next m = some r) : m.Settles r := by
  have leads : m.Leads { m with store := (e m.store).2 } := .of_journal id rfl
  cases value : (e m.store).1 with
  | error failure =>
      rw [onValue_error value] at run
      cases run
      refine ⟨leads, fun other same => ?_⟩
      cases same
      exact .inl (h m.store failure value)
  | ok a =>
      rw [onValue_ok value] at run
      exact leads.settles_trans (goesOn a run)

theorem write_settles (m : Machine σ) (bytes : ByteArray) : m.Settles (m.write bytes) := by
  refine ⟨.of_journal (fun free => (free.write bytes).2) rfl, fun failure fails => .inr ?_⟩
  rw [write_fst] at fails
  obtain ⟨refusal, refused, same⟩ := refusal_of_mapError fails
  refine ⟨fun free => ?_, refusal, same⟩
  rw [(free.write bytes).1] at refused
  cases refused

theorem flush_settles (m : Machine σ) : m.Settles m.flush := by
  refine ⟨.of_journal (fun free => free.flush.2) rfl, fun failure fails => .inr ?_⟩
  rw [flush_fst] at fails
  obtain ⟨refusal, refused, same⟩ := refusal_of_mapError fails
  refine ⟨fun free => ?_, refusal, same⟩
  rw [free.flush.1] at refused
  cases refused

/-- A line is written and then flushed, so there are two places to fail. -/
theorem print_settles (m : Machine σ) (value : Int32) : m.Settles (m.print value) := by
  have written := m.write_settles (lineOf value)
  rw [print]
  split
  · rename_i failure m' same
    rwa [same] at written
  · rename_i m' same
    rw [same] at written
    exact written.leads.settles_trans m'.flush_settles

/-- Running behind a boundary leads on. -/
theorem contain_leads {kind : NodeKind} {act : Execution σ}
    (h : ∀ {m r}, act m = some r → m.Settles r) {m m' : Machine σ}
    (run : contain kind act m = some m') : m.Leads m' := by
  obtain ⟨r, done, rfl⟩ := Option.map_eq_some_iff.mp run
  exact (leads_log m _).trans ((h done).settle kind)

/-- A loop leads on through every round. -/
theorem iterate_settles {test : Evaluation Bool} {body : Machine σ → Option (Machine σ)}
    (ht : test.Arithmetic) (hb : ∀ {m m'}, body m = some m' → m.Leads m') :
    ∀ (rounds : Nat) {m : Machine σ} {r : Except Failure Unit × Machine σ},
      iterate test body rounds m = some r → m.Settles r
  | 0, _, _, run => by cases run
  | rounds + 1, m, r, run => by
      rw [iterate_succ] at run
      refine onValue_settles ht (fun holds m r run => ?_) run
      cases holds with
      | false =>
          cases run
          exact (Leads.refl m).settles
      | true =>
          obtain ⟨m', round, rest⟩ := Option.bind_eq_some_iff.mp run
          exact (hb round).settles_trans (iterate_settles ht hb rounds rest)

/-- By recursion on the list, with every failure settled behind its statement. -/
theorem performAll_leads {rounds : Nat} :
    ∀ {nodes : List Node},
      (∀ node ∈ nodes, ∀ {m : Machine σ} {r}, node.perform rounds m = some r → m.Settles r) →
      ∀ {m m' : Machine σ}, performAll rounds nodes m = some m' → m.Leads m'
  | [], _, m, m', run => by
      cases run
      exact .refl m
  | node :: nodes, h, m, m', run => by
      rw [performAll] at run
      obtain ⟨between, first, rest⟩ := Option.bind_eq_some_iff.mp run
      have others := fun other mem => @h other (List.mem_cons_of_mem node mem)
      exact (contain_leads (h node List.mem_cons_self) first).trans (performAll_leads others rest)

/-- The last flush may be refused. -/
theorem leads_finish (m : Machine σ) : m.Leads m.finish := by
  have flushed := m.flush_settles
  rw [finish]
  refine Leads.trans ?_ (leads_log _ _)
  split
  · rename_i m' same
    rw [same] at flushed
    exact flushed.leads
  · rename_i failure m' same
    rw [same] at flushed
    exact flushed.leads.fail (flushed.expected failure rfl)

end Machine

open Machine

variable [Outlet σ]

/-- A typed statement fails only as expected, and so does every statement in it. -/
theorem Node.IsStatement.perform_settles {node : Node} (h : node.IsStatement) {rounds : Nat} :
    ∀ {m : Machine σ} {r : Except Failure Unit × Machine σ},
      node.perform rounds m = some r → m.Settles r := by
  induction h with
  | assign value =>
      intro m r run
      rw [perform_assign] at run
      refine onValue_settles value.arithmetic (fun v m r run => ?_) run
      cases run
      exact (leads_assign m _ v).settles
  | out value =>
      intro m r run
      rw [perform_out] at run
      refine onValue_settles value.arithmetic (fun v m r run => ?_) run
      cases run
      exact print_settles m v
  | when condition _ ih =>
      intro m r run
      rw [perform_when] at run
      refine onValue_settles condition.arithmetic (fun holds m r run => ?_) run
      obtain ⟨m', branch, rfl⟩ := Option.map_eq_some_iff.mp run
      cases holds with
      | true => exact (contain_leads ih branch).settles
      | false =>
          cases branch
          exact (Leads.refl m).settles
  | whenElse condition _ _ ih ih' =>
      intro m r run
      rw [perform_when] at run
      refine onValue_settles condition.arithmetic (fun holds m r run => ?_) run
      obtain ⟨m', branch, rfl⟩ := Option.map_eq_some_iff.mp run
      cases holds with
      | true => exact (contain_leads ih branch).settles
      | false => exact (contain_leads ih' branch).settles
  | loop condition _ ih =>
      intro m r run
      rw [perform_loop] at run
      exact iterate_settles condition.arithmetic (contain_leads ih) rounds run
  | seq _ ih =>
      intro m r run
      rw [perform_seq] at run
      obtain ⟨m', all, rfl⟩ := Option.map_eq_some_iff.mp run
      exact (performAll_leads (fun node mem => ih node mem) all).settles

/-- A statement that runs as a part of another, or that statement itself. -/
inductive Node.Within (node : Node) : Node → Prop where
  | refl : node.Within node
  | thenBranch {condition branch : Node} {elseBranch : Option Node} :
      node.Within branch → node.Within (.when condition branch elseBranch)
  | elseBranch {condition thenBranch branch : Node} :
      node.Within branch → node.Within (.when condition thenBranch (some branch))
  | body {condition body : Node} : node.Within body → node.Within (.loop condition body)
  | member {statements : List Node} {statement : Node} :
      statement ∈ statements → node.Within statement → node.Within (.seq statements)

/-- Every statement in a typed statement is typed, by induction on where it stands. -/
theorem Node.Within.isStatement {node tree : Node} (h : node.Within tree)
    (typed : tree.IsStatement) : node.IsStatement := by
  induction h with
  | refl => exact typed
  | thenBranch _ ih =>
      cases typed with
      | when _ branch => exact ih branch
      | whenElse _ branch _ => exact ih branch
  | elseBranch _ ih =>
      cases typed with
      | whenElse _ _ branch => exact ih branch
  | body _ ih =>
      cases typed with
      | loop _ body => exact ih body
  | member mem _ ih =>
      cases typed with
      | seq all => exact ih (all _ mem)

/-- The program of an accepted source runs without a failure for a node that is out of place:
no statement of it raises one, from whatever machine, and no run of it reports one.  If the
sink never refuses anything, all that a run reports is zero divisors. -/
theorem readProgram_safe {source : String} {tree : Node}
    (accepted : readProgram source = .ok tree) :
    (∀ (node : Node) (rounds : Nat) (m m' : Machine σ) (failure : Failure),
      node.Within tree → node.perform rounds m = some (.error failure, m') →
        failure = .divisionByZero ∨ ∃ refusal, failure = .output refusal) ∧
    ∀ (rounds : Nat) (m m' : Machine σ), m.run rounds (some tree) = some m' →
      ∃ new : List Notice, m'.journal.toList = m.journal.toList ++ new ∧
        (∀ failure, .failed failure ∈ new →
          failure = .divisionByZero ∨ ∃ refusal, failure = .output refusal) ∧
        (NeverRefuses m.sink → ∀ failure, .failed failure ∈ new → failure = .divisionByZero) := by
  have typed := readProgram_typed accepted
  refine ⟨?_, ?_⟩
  · intro node rounds m m' failure inside run
    have settles := (inside.isStatement typed).perform_settles run
    exact (settles.expected failure rfl).imp_right And.right
  · intro rounds m m' run
    obtain ⟨last, done, rfl⟩ := Option.map_eq_some_iff.mp run
    rw [contained] at done
    have leads := (leads_log m _).trans
      ((contain_leads typed.perform_settles done).trans (leads_finish last))
    obtain ⟨new, same, expected⟩ := leads.journal
    refine ⟨new, same, ?_, ?_⟩
    · intro failure mem
      exact (expected failure mem).imp_right And.right
    · intro free failure mem
      rcases expected failure mem with zero | ⟨bound, _⟩
      · exact zero
      · exact absurd free bound

/-- A quotient by zero fails in every run, and nothing else does. -/
theorem readProgram_safe_quotient :
    ((Machine.new Sink.unlimited none).run 1 (some (parse "out 1 / 0;").tree)).map (·.journal)
      = some #[.failed .divisionByZero] ∧
    ∀ (rounds : Nat) (m' : Machine Sink),
      (Machine.new Sink.unlimited none).run rounds (some (parse "out 1 / 0;").tree) = some m' →
      ∀ failure, .failed failure ∈ m'.journal.toList → failure = .divisionByZero := by
  have accepted : readProgram "out 1 / 0;" = .ok (parse "out 1 / 0;").tree :=
    readProgram_eq_ok.mpr ⟨by decide +kernel, rfl⟩
  refine ⟨by decide +kernel, fun rounds m' run => ?_⟩
  obtain ⟨new, same, -, zero⟩ := (readProgram_safe accepted).2 rounds _ m' run
  rw [same]
  have free : Sink.unlimited.Unbounded := ⟨rfl, rfl⟩
  exact zero free.neverRefuses

end WhenLoop
