import WhenLoop.Proofs.Containment
import WhenLoop.Proofs.Layout
import WhenLoop.Proofs.SinkIndependence
import WhenLoop.Proofs.TypeSafety
import WhenLoop.Proofs.Words

/-!
# One source behind another

Two accepted sources with a line feed between them are one accepted source.  It spells the words
of the first and then those of the second, and its tree is the list of the statements of both.
No construct of the grammar goes on behind a whole program, so nothing of the first source is
left open where the second one starts.

To run this tree is to run the two programs one after the other on one machine
(`Machine.runsTo_append`).  The two runs differ in what they log, since each program logs its
start and its end.  They also differ in the flush at the end of the first program, which a sink
without bounds takes and forgets.  What is left is the same (`Machine.Alongside`).
-/

namespace WhenLoop

open Lexical Grammar

/-! ## Reading -/

/-- By induction on the first derivation. -/
theorem Grammar.Statements.append {most levels : Nat} {ts us : List Token} {xs ys : List Node}
    (h : Statements most levels ts xs) (h' : Statements most levels us ys) :
    Statements most levels (ts ++ us) (xs ++ ys) := by
  induction xs generalizing ts with
  | nil =>
      cases h
      exact h'
  | cons node xs ih =>
      cases h with
      | cons first others =>
          rw [List.append_assoc]
          exact .cons first (ih others)

/-- Two programs that can be derived make one, with the statements of both. -/
theorem Derives.append {words others : List Word} {xs ys : List Node}
    (h : Derives words (.seq xs)) (h' : Derives others (.seq ys)) :
    Derives (words ++ others) (.seq (xs ++ ys)) := by
  cases h with
  | whole statements =>
      cases h' with
      | whole statements' =>
          rw [Derives, List.map_append]
          exact .whole (statements.append statements')

/-- The line feed keeps the last token of the first program apart from the first of the second. -/
theorem readProgram_append {s t : String} {xs ys : List Node}
    (h : readProgram s = .ok (.seq xs)) (h' : readProgram t = .ok (.seq ys)) :
    readProgram (s ++ "\n" ++ t) = .ok (.seq (xs ++ ys)) := by
  obtain ⟨words, spells, derives⟩ := readProgram_eq_ok_iff_words.mp h
  obtain ⟨others, spells', derives'⟩ := readProgram_eq_ok_iff_words.mp h'
  refine readProgram_eq_ok_iff_words.mpr ⟨words ++ others, ?_, derives.append derives'⟩
  rw [String.toList_append, String.toList_append, List.append_assoc]
  exact spells.append spells'

/-! ## Running -/

theorem Sink.Unbounded.flush_eq {sink : Sink} (h : sink.Unbounded) :
    sink.flush = (.ok (), sink) := by
  rw [Sink.flush, h.2]

/-- A sink without bounds has none after a line either. -/
theorem Sink.Unbounded.print {sink : Sink} (h : sink.Unbounded) (value : Int32) :
    (sink.print value).2.Unbounded := by
  obtain ⟨-, written⟩ := h.write (Machine.lineOf value)
  rw [Sink.print, Outlet.print, outlet_write]
  split
  · rename_i same
    rwa [same] at written
  · rename_i same
    rw [same] at written
    exact written.flush.2

namespace Machine

/-- Two machines that differ in their journals only, with a sink that has no bounds. -/
structure Alongside (m n : Machine Sink) : Prop where
  store : m.store = n.store
  sink : m.sink = n.sink
  errors : m.errors = n.errors
  free : n.sink.Unbounded

variable {m n : Machine Sink}

theorem Alongside.log_left (h : Alongside m n) (event : LogEvent) : Alongside (m.log event) n := by
  refine ⟨?_, ?_, ?_, h.free⟩
  · rw [log_store, h.store]
  · rw [log_sink, h.sink]
  · rw [log_errors, h.errors]

theorem Alongside.symm (h : Alongside m n) : Alongside n m :=
  ⟨h.store.symm, h.sink.symm, h.errors.symm, h.sink ▸ h.free⟩

theorem Alongside.log_right (h : Alongside m n) (event : LogEvent) : Alongside m (n.log event) :=
  (h.symm.log_left event).symm

theorem Alongside.fail (h : Alongside m n) (failure : Failure) :
    Alongside (m.fail failure) (n.fail failure) :=
  ⟨h.store, h.sink, congrArg (· + 1) h.errors, h.free⟩

/-- No operation reads the journal, so machines that differ in it alone go on alongside each
other. -/
theorem alongside_simulation : Simulation Alongside where
  log h event := (h.log_left event).log_right event
  fail h failure := h.fail failure
  evaluate {m n α e} h _ := by
    rw [h.store]
    exact ⟨rfl, rfl, h.sink, h.errors, h.free⟩
  assign h name value := by
    refine ⟨?_, h.sink, h.errors, h.free⟩
    rw [assign, assign, h.store]
  print {m n} h value := by
    rw [print_eq, print_eq, h.sink, Sink.outlet_print]
    have printed : Alongside { m with sink := (n.sink.print value).2 }
        { n with sink := (n.sink.print value).2 } := ⟨h.store, rfl, h.errors, h.free.print value⟩
    cases (n.sink.print value).1 with
    | ok done => exact printed
    | error refusal => exact ((printed.log_left _).log_right _).fail _

/-- The end of a program leaves a machine without bounds on its sink as it is. -/
theorem Alongside.finish (h : Alongside m n) : Alongside m n.finish := by
  obtain ⟨store, sink, errors⟩ := n.finish_fields
  rw [h.free.flush_eq] at sink errors
  refine ⟨?_, ?_, ?_, ?_⟩
  · rw [store, h.store]
  · rw [sink, h.sink]
  · rw [errors, h.errors]
    rfl
  · rw [sink]
    exact h.free

/-- A program that is a list runs its statements and then finishes. -/
theorem run_seq {σ : Type} [Outlet σ] (rounds : Nat) (nodes : List Node) (m : Machine σ) :
    m.run rounds (some (.seq nodes)) =
      (performAll rounds nodes ((m.log .executing).log (.entering .seq))).map Machine.finish := by
  rw [run, contained, contain, Node.perform_seq, settle_success]
  rfl

/-- Two programs one after the other under the same bound. -/
def runBoth (xs ys : List Node) (m : Machine Sink) (rounds : Nat) : Option (Machine Sink) :=
  (m.run rounds (some (.seq xs))).bind fun mid => mid.run rounds (some (.seq ys))

/-- To run a program behind another is to run the list of both. -/
theorem run_lockstep (free : m.sink.Unbounded) (rounds : Nat) (xs ys : List Node) :
    Option.Rel Alongside (m.run rounds (some (.seq (xs ++ ys)))) (m.runBoth xs ys rounds) := by
  have sim := alongside_simulation
  have start : Alongside m m := ⟨rfl, rfl, rfl, free⟩
  have first := sim.performAll (fun node (_ : node ∈ xs) => sim.perform rounds node)
    (sim.log (sim.log start .executing) (.entering .seq))
  rw [runBoth, run_seq, run_seq, performAll_append]
  cases done : performAll rounds xs ((m.log .executing).log (.entering .seq)) with
  | none => exact .none
  | some mid =>
      rw [done] at first
      obtain ⟨_, same, between⟩ := rel_some_left first
      cases same
      rw [Option.map_some, Option.bind_some, Option.bind_some, run_seq]
      have again := (between.finish.log_right .executing).log_right (.entering .seq)
      have second := sim.performAll (fun node (_ : node ∈ ys) => sim.perform rounds node) again
      exact rel_map second fun rel => rel.finish.symm.finish.symm

/-- A run that ended under a bound ends the same way under a larger one. -/
theorem runBoth_mono {xs ys : List Node} {rounds more : Nat} {m' : Machine Sink}
    (le : rounds ≤ more) (h : m.runBoth xs ys rounds = some m') :
    m.runBoth xs ys more = some m' := by
  obtain ⟨mid, first, second⟩ := Option.bind_eq_some_iff.mp h
  exact Option.bind_eq_some_iff.mpr ⟨mid, run_mono le first, run_mono le second⟩

/-- Two programs end one after the other exactly if they do so under some bound for both. -/
theorem runBoth_ends {xs ys : List Node} {m' : Machine Sink} :
    (∃ rounds, m.runBoth xs ys rounds = some m') ↔
      ∃ mid, m.RunsTo (some (.seq xs)) mid ∧ mid.RunsTo (some (.seq ys)) m' := by
  constructor
  · rintro ⟨rounds, h⟩
    obtain ⟨mid, first, second⟩ := Option.bind_eq_some_iff.mp h
    exact ⟨mid, ⟨rounds, first⟩, ⟨rounds, second⟩⟩
  · rintro ⟨mid, ⟨k, first⟩, ⟨k', second⟩⟩
    refine ⟨max k k', Option.bind_eq_some_iff.mpr ⟨mid, ?_, ?_⟩⟩
    · exact run_mono (Nat.le_max_left k k') first
    · exact run_mono (Nat.le_max_right k k') second

/-- A list of statements ends exactly if its first part ends and the rest ends behind it, and
then the machines that are left differ in their journals only. -/
theorem runsTo_append (free : m.sink.Unbounded) (xs ys : List Node) :
    ((∃ n, m.RunsTo (some (.seq (xs ++ ys))) n) ↔
      ∃ m' mid, m.RunsTo (some (.seq xs)) mid ∧ mid.RunsTo (some (.seq ys)) m') ∧
    ∀ n mid m', m.RunsTo (some (.seq (xs ++ ys))) n → m.RunsTo (some (.seq xs)) mid →
      mid.RunsTo (some (.seq ys)) m' → Alongside n m' := by
  obtain ⟨together, related⟩ := ends_of_lockstep (fun le => run_mono le)
    (fun le => runBoth_mono le) fun rounds (_ : 0 ≤ rounds) => run_lockstep free rounds xs ys
  simp only [runBoth_ends] at together related
  exact ⟨together, fun n mid m' whole first second => related n m' whole ⟨mid, first, second⟩⟩

/-- Logging the bindings only logs, by induction on them. -/
theorem logBindings_fields {σ : Type} (m : Machine σ) :
    m.logBindings.store = m.store ∧ m.logBindings.sink = m.sink ∧
      m.logBindings.errors = m.errors := by
  have keeps : ∀ (bindings : List (String × Int32)) (n : Machine σ),
      let last := bindings.foldl (fun n binding => n.log (.binding binding.1 binding.2)) n
      last.store = n.store ∧ last.sink = n.sink ∧ last.errors = n.errors := by
    intro bindings
    induction bindings with
    | nil => exact fun n => ⟨rfl, rfl, rfl⟩
    | cons binding bindings ih =>
        intro n
        obtain ⟨store, sink, errors⟩ := ih (n.log (.binding binding.1 binding.2))
        exact ⟨store.trans (n.log_store _), sink.trans (n.log_sink _),
          errors.trans (n.log_errors _)⟩
  exact keeps m.store.toList m

end Machine

open Machine

/-- To interpret an accepted source is to run its program. -/
theorem interpret_eq_ok {source : String} {program : Node} (h : readProgram source = .ok program)
    {σ : Type} [Outlet σ] {rounds : Nat} {sink : σ} {threshold : Option Level} {m : Machine σ} :
    interpret rounds sink threshold source = some (.ok m) ↔
      ∃ n, (Machine.new sink threshold).run rounds (some program) = some n ∧ n.logBindings = m := by
  rw [interpret, h]
  simp [runProgram]

/-- Two accepted sources with a line feed between them are accepted, with the statements of the
first and then those of the second.  To interpret them together ends exactly if running the one
program and then the other on the same machine ends.  It gives the same output, the same count
of failures and the same bindings. -/
theorem interpret_append {s t : String} {xs ys : List Node}
    (first : readProgram s = .ok (.seq xs)) (second : readProgram t = .ok (.seq ys))
    (threshold : Option Level) :
    readProgram (s ++ "\n" ++ t) = .ok (.seq (xs ++ ys)) ∧
    ((∃ rounds m, interpret rounds Sink.unlimited threshold (s ++ "\n" ++ t) = some (.ok m)) ↔
      ∃ m' mid, (Machine.new Sink.unlimited threshold).RunsTo (some (.seq xs)) mid ∧
        mid.RunsTo (some (.seq ys)) m') ∧
    ∀ rounds m mid m', interpret rounds Sink.unlimited threshold (s ++ "\n" ++ t) = some (.ok m) →
      (Machine.new Sink.unlimited threshold).RunsTo (some (.seq xs)) mid →
      mid.RunsTo (some (.seq ys)) m' →
      m.sink.taken = m'.sink.taken ∧ m.errors = m'.errors ∧ m.store = m'.store := by
  have accepted := readProgram_append first second
  have free : (Machine.new Sink.unlimited threshold).sink.Unbounded := ⟨rfl, rfl⟩
  obtain ⟨together, related⟩ := runsTo_append free xs ys
  refine ⟨accepted, ?_, ?_⟩
  · rw [← together]
    constructor
    · rintro ⟨rounds, m, ends⟩
      obtain ⟨n, run, -⟩ := (interpret_eq_ok accepted).mp ends
      exact ⟨n, rounds, run⟩
    · rintro ⟨n, rounds, run⟩
      exact ⟨rounds, _, (interpret_eq_ok accepted).mpr ⟨n, run, rfl⟩⟩
  · intro rounds m mid m' ends run run'
    obtain ⟨n, whole, rfl⟩ := (interpret_eq_ok accepted).mp ends
    obtain ⟨store, sink, errors⟩ := n.logBindings_fields
    have alongside := related n mid m' ⟨rounds, whole⟩ run run'
    refine ⟨?_, ?_, ?_⟩
    · rw [sink, alongside.sink]
    · rw [errors, alongside.errors]
    · rw [store, alongside.store]

/-- The first source ends in a line comment without a line feed, and the second one fails. -/
theorem interpret_append_comment :
    readProgram "x = 7; // seven" = .ok (.seq [.assign "x" (.num 7)]) ∧
    readProgram "out x / y;" = .ok (.seq [.out (.arith .div (.var "x") (.var "y"))]) ∧
    readProgram ("x = 7; // seven" ++ "\n" ++ "out x / y;") =
      .ok (.seq [.assign "x" (.num 7), .out (.arith .div (.var "x") (.var "y"))]) ∧
    ∃ m mid m', interpret 1 Sink.unlimited none ("x = 7; // seven" ++ "\n" ++ "out x / y;") =
        some (.ok m) ∧
      (Machine.new Sink.unlimited none).RunsTo (some (.seq [.assign "x" (.num 7)])) mid ∧
      mid.RunsTo (some (.seq [.out (.arith .div (.var "x") (.var "y"))])) m' ∧
      m.errors = 1 ∧ m.errors = m'.errors ∧ m.store = m'.store := by
  have first : readProgram "x = 7; // seven" = .ok (.seq [.assign "x" (.num 7)]) := by
    with_unfolding_all rfl
  have second : readProgram "out x / y;" =
      .ok (.seq [.out (.arith .div (.var "x") (.var "y"))]) := by
    with_unfolding_all rfl
  obtain ⟨accepted, -, same⟩ := interpret_append first second none
  have run : (Machine.new Sink.unlimited none).run 1 (some (.seq
      [.assign "x" (.num 7), .out (.arith .div (.var "x") (.var "y"))])) = some _ := rfl
  have whole := (interpret_eq_ok accepted).mpr ⟨_, run, rfl⟩
  obtain ⟨-, errors, store⟩ := same 1 _ _ _ whole ⟨1, rfl⟩ ⟨1, rfl⟩
  exact ⟨first, second, accepted, _, _, _, whole, ⟨1, rfl⟩, ⟨1, rfl⟩, rfl, errors, store⟩

end WhenLoop
